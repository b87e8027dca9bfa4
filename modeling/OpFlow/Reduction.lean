import OpFlow.Bytes
import OpFlow.Element
import OpFlow.Error

/-!
Reductions: folding byte strings element by element. Integers wrap around at their width, truth
values come out as zero or one, and floats follow the machine. Two strings can be reduced when they
have one length and that length is a whole number of elements.
-/
namespace OpFlow

inductive ReductionKind
  | sum
  | product
  | min
  | max
  deriving DecidableEq, Repr, Inhabited

def ReductionKind.describe : ReductionKind → String
  | sum => "Sum"
  | product => "Product"
  | min => "Min"
  | max => "Max"

namespace Reduction

def ofBools : ReductionKind → Bool → Bool → Bool
  | .sum, x, y | .max, x, y => x || y
  | .product, x, y | .min, x, y => x && y

def ofInts : ReductionKind → Int → Int → Int
  | .sum, x, y => x + y
  | .product, x, y => x * y
  | .min, x, y => Min.min x y
  | .max, x, y => Max.max x y

/-- The layout of a float: its width in bytes, the word of infinity, and the quiet bit. -/
structure FloatLayout where
  width : Nat
  infinity : Nat
  quietBit : Nat

namespace FloatLayout

def single : FloatLayout := ⟨4, 0x7f800000, 0x00400000⟩
def double : FloatLayout := ⟨8, 0x7ff0000000000000, 0x0008000000000000⟩

def signBit (l : FloatLayout) : Nat := Nat.pow 2 (8 * l.width - 1)

def isNaN (l : FloatLayout) (word : Nat) : Bool := l.infinity < word % l.signBit

def quiet (l : FloatLayout) (word : Nat) : Nat := word ||| l.quietBit

def invalid (l : FloatLayout) : Nat := l.signBit + l.infinity + l.quietBit

/-- The word of a sum or product computed as `result`: an operand that is no number goes through
made quiet, the first one before the second. -/
def settle (l : FloatLayout) (x y result : Nat) : Nat :=
  if l.isNaN x then l.quiet x
  else if l.isNaN y then l.quiet y
  else if l.isNaN result then l.invalid
  else result

end FloatLayout

def ofSingles (k : ReductionKind) (x y : Nat) : Nat :=
  let a := Float32.ofBits (UInt32.ofNat x)
  let b := Float32.ofBits (UInt32.ofNat y)
  match k with
  | .sum => FloatLayout.single.settle x y (a + b).toBits.toNat
  | .product => FloatLayout.single.settle x y (a * b).toBits.toNat
  | .min => if b < a then y else x
  | .max => if b > a then y else x

def ofDoubles (k : ReductionKind) (x y : Nat) : Nat :=
  let a := Float.ofBits (UInt64.ofNat x)
  let b := Float.ofBits (UInt64.ofNat y)
  match k with
  | .sum => FloatLayout.double.settle x y (a + b).toBits.toNat
  | .product => FloatLayout.double.settle x y (a * b).toBits.toNat
  | .min => if b < a then y else x
  | .max => if b > a then y else x

/-- The reduction of two elements given by their bytes. -/
def ofElements (t : ElementType) (k : ReductionKind) (x y : Bytes) : Bytes :=
  match t with
  | .pred => [if ofBools k (x.toNat != 0) (y.toNat != 0) then 1 else 0]
  | .u8 => .ofInt 1 (ofInts k x.toNat y.toNat)
  | .s32 => .ofInt 4 (ofInts k x.toInt y.toInt)
  | .s64 => .ofInt 8 (ofInts k x.toInt y.toInt)
  | .f32 => .ofNat 4 (ofSingles k x.toNat y.toNat)
  | .f64 => .ofNat 8 (ofDoubles k x.toNat y.toNat)

@[simp] theorem length_ofElements (t : ElementType) (k : ReductionKind) (x y : Bytes) :
    (ofElements t k x y).length = t.width := by
  cases t <;> simp [ofElements, ElementType.width]

def elements (t : ElementType) (b : Bytes) : List Bytes := b.blocks t.width (b.length / t.width)

/-- Folds `other` into `acc`, element by element. -/
def reduce (t : ElementType) (k : ReductionKind) (acc other : Bytes) : Except Error Bytes :=
  if acc.length ≠ other.length then
    .error (.invalidArgument ("reduction operands differ in size: " ++ toString acc.length ++
      " vs " ++ toString other.length ++ " bytes"))
  else if acc.length % t.width ≠ 0 then
    .error (.invalidArgument (toString acc.length ++ " bytes is not a whole number of " ++
      t.describe ++ " elements"))
  else
    .ok (List.zipWith (ofElements t k) (elements t acc) (elements t other)).flatten

/-- Folds the contributions of all ranks, from the first on. A single contribution is the result
as it stands. -/
def reduceAll (t : ElementType) (k : ReductionKind) : List Bytes → Except Error Bytes
  | [] => .error (.invalidArgument "reduction over zero participants")
  | first :: rest => rest.foldlM (reduce t k) first

@[simp] theorem reduceAll_singleton (t : ElementType) (k : ReductionKind) (b : Bytes) :
    reduceAll t k [b] = .ok b := rfl

end Reduction

end OpFlow
