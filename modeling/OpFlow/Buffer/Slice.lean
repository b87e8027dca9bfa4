import OpFlow.Text.Quoted

/-!
Slices and their uses. A slice is a byte range inside one slot of an arena; a use says whether an
operation reads it or writes it. Two uses conflict when they touch the same slot and one of them
writes: ranges are not compared, so disjoint halves of a slot still conflict.
-/
namespace OpFlow

def wordSize : Nat := Nat.pow 2 64

def saturatingAdd (a b : Nat) : Nat := min (a + b) (wordSize - 1)

def saturatingMul (a b : Nat) : Nat := min (a * b) (wordSize - 1)

/-- No memory holds so many bytes. -/
def memoryLimit : Nat := Nat.pow 2 63

inductive Access
  | read
  | write
  deriving DecidableEq, Repr, Inhabited

namespace Access

def isWrite : Access → Bool
  | read => false
  | write => true

def describe : Access → String
  | read => "Read"
  | write => "Write"

def conflicts (a b : Access) : Bool := a.isWrite || b.isWrite

theorem conflicts_comm (a b : Access) : a.conflicts b = b.conflicts a := by
  cases a <;> cases b <;> rfl

end Access

/-- The bytes from `offset` on, `size` of them, in one slot. -/
structure Slice where
  index : Nat
  offset : Nat
  size : Nat
  deriving DecidableEq, Repr, Inhabited

namespace Slice

def stop (s : Slice) : Nat := saturatingAdd s.offset s.size

def describe (s : Slice) : String :=
  "slice#" ++ toString s.index ++ "[" ++ toString s.offset ++ ".." ++ toString s.stop ++ "]"

end Slice

/-- One entry of what an operation declares to touch in the arena. -/
structure BufferUse where
  slice : Slice
  access : Access
  deriving DecidableEq, Repr, Inhabited

namespace BufferUse

def read (s : Slice) : BufferUse := ⟨s, .read⟩
def write (s : Slice) : BufferUse := ⟨s, .write⟩

def conflicts (a b : BufferUse) : Bool :=
  a.slice.index == b.slice.index && a.access.conflicts b.access

theorem conflicts_comm (a b : BufferUse) : a.conflicts b = b.conflicts a := by
  simp [conflicts, Access.conflicts_comm a.access, Bool.beq_comm (a := a.slice.index)]

def describe (u : BufferUse) : String :=
  Text.record "BufferUse" [("slice", u.slice.describe), ("access", u.access.describe)]

def display (u : BufferUse) : String :=
  (if u.access.isWrite then "w:" else "r:") ++ u.slice.describe

end BufferUse

end OpFlow
