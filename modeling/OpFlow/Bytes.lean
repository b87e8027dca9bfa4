/-!
Byte strings as numbers: little-endian words, and equal consecutive blocks. Writing a word and
reading it back gives the word modulo its width, and the blocks of a string concatenate to it.
-/
namespace OpFlow

abbrev Bytes := List UInt8

namespace Bytes

def toNat : Bytes → Nat
  | [] => 0
  | b :: bs => b.toNat + 256 * toNat bs

def ofNat : Nat → Nat → Bytes
  | 0, _ => []
  | width + 1, n => UInt8.ofNat n :: ofNat width (n / 256)

/-- The bytes of a number that may be negative, in two's complement. -/
def ofInt (width : Nat) (n : Int) : Bytes := ofNat width (n % Nat.pow 256 width).toNat

/-- The number that the bytes denote in two's complement. -/
def toInt (bs : Bytes) : Int := Int.bmod bs.toNat (Nat.pow 256 bs.length)

def blocks (width : Nat) : Nat → Bytes → List Bytes
  | 0, _ => []
  | count + 1, bs => bs.take width :: blocks width count (bs.drop width)

@[simp] theorem length_ofNat (width n : Nat) : (ofNat width n).length = width := by
  induction width generalizing n with
  | zero => rfl
  | succ width ih => simp [ofNat, ih]

@[simp] theorem length_ofInt (width : Nat) (n : Int) : (ofInt width n).length = width := by
  simp [ofInt]

theorem toNat_lt (bs : Bytes) : toNat bs < Nat.pow 256 bs.length := by
  induction bs with
  | nil => simp [toNat]
  | cons b bs ih =>
    have := b.toNat_lt
    simp only [toNat, List.length_cons, Nat.pow_eq, Nat.pow_succ] at ih ⊢
    omega

theorem toNat_ofNat (width n : Nat) : toNat (ofNat width n) = n % Nat.pow 256 width := by
  induction width generalizing n with
  | zero => simp [ofNat, toNat, Nat.mod_one]
  | succ width ih =>
    simp only [ofNat, toNat, ih, UInt8.toNat_ofNat', Nat.pow_eq]
    rw [show (2 : Nat) ^ 8 = 256 from rfl, Nat.pow_succ', Nat.mod_mul]

theorem ofNat_toNat (bs : Bytes) : ofNat bs.length bs.toNat = bs := by
  induction bs with
  | nil => rfl
  | cons b bs ih =>
    have h := b.toNat_lt
    have hd : (b.toNat + 256 * toNat bs) / 256 = toNat bs := by omega
    have hm : UInt8.ofNat (b.toNat + 256 * toNat bs) = b := by
      apply UInt8.toNat_inj.1
      simp only [UInt8.toNat_ofNat']
      omega
    simp only [List.length_cons, ofNat, toNat, hd, hm, ih]

@[simp] theorem length_blocks (width count : Nat) (bs : Bytes) :
    (blocks width count bs).length = count := by
  induction count generalizing bs with
  | zero => rfl
  | succ count ih => simp [blocks, ih]

theorem flatten_blocks (width count : Nat) (bs : Bytes) :
    (blocks width count bs).flatten = bs.take (count * width) := by
  induction count generalizing bs with
  | zero => simp [blocks]
  | succ count ih =>
    simp only [blocks, List.flatten_cons, ih]
    rw [Nat.succ_mul, Nat.add_comm, List.take_add]

theorem flatten_blocks_of_length {width count : Nat} {bs : Bytes}
    (h : bs.length = count * width) : (blocks width count bs).flatten = bs := by
  rw [flatten_blocks, ← h, List.take_length]

theorem getElem?_blocks {width count i : Nat} {bs : Bytes} (h : i < count) :
    (blocks width count bs)[i]? = some ((bs.drop (i * width)).take width) := by
  induction count generalizing bs i with
  | zero => omega
  | succ count ih =>
    cases i with
    | zero => simp [blocks]
    | succ i =>
      simp only [blocks, List.getElem?_cons_succ]
      rw [ih (by omega), List.drop_drop, Nat.succ_mul, Nat.add_comm width]

end Bytes

end OpFlow
