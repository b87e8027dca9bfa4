import OpFlow.Buffer.Slice
import OpFlow.Bytes
import OpFlow.Fault

/-!
The arena: an ordered table of byte buffers, the slots, that all operations of a program share.
A slice can be read or written when its slot exists and holds it to the end; a failed access
changes nothing, and a write changes only the bytes of its slice.
-/
namespace OpFlow

structure Arena where
  slots : Array Bytes
  deriving DecidableEq, Repr, Inhabited

/-- Replaces the bytes from `offset` on by as many new ones. -/
def Bytes.splice (b : Bytes) (offset : Nat) (new : Bytes) : Bytes :=
  b.take offset ++ new ++ b.drop (offset + new.length)

theorem Bytes.length_splice {b new : Bytes} {offset : Nat} (h : offset + new.length ≤ b.length) :
    (b.splice offset new).length = b.length := by
  simp [splice]; omega

namespace Arena

def ofSlots (slots : List Bytes) : Arena := ⟨slots.toArray⟩

def ofSizes (sizes : List Nat) : Except Fault Arena :=
  if sizes.any (memoryLimit ≤ ·) then .error .capacity
  else .ok (.ofSlots (sizes.map fun n => List.replicate n 0))

def size (a : Arena) : Nat := a.slots.size

def slot (a : Arena) (index : Nat) : Except Error Bytes :=
  match a.slots[index]? with
  | some b => .ok b
  | none => .error (.invalidArgument ("buffer slot " ++ toString index ++
      " out of range (table has " ++ toString a.size ++ " slots)"))

def sizeOf (a : Arena) (index : Nat) : Except Error Nat := List.length <$> a.slot index

def checkBounds (s : Slice) (length : Nat) : Except Error Unit :=
  if s.offset + s.size ≤ length then .ok ()
  else .error (.invalidArgument (s.describe ++ " exceeds slot size " ++ toString length))

def read (a : Arena) (s : Slice) : Except Error Bytes := do
  let b ← a.slot s.index
  checkBounds s b.length
  return (b.drop s.offset).take s.size

def modify (a : Arena) (s : Slice) (f : Bytes → Bytes) : Except Error Arena := do
  let old ← a.read s
  return ⟨a.slots.modify s.index fun b => b.splice s.offset (f old)⟩

def write (a : Arena) (s : Slice) (new : Bytes) : Except Error Arena :=
  if new.length ≠ s.size then
    .error (.invalidArgument
      ("cannot write " ++ toString new.length ++ " bytes into " ++ s.describe))
  else a.modify s fun _ => new

/-- Copies one slice over another of the same size; they may overlap. -/
def copy (a : Arena) (src dst : Slice) : Except Error Arena :=
  if src.size ≠ dst.size then
    .error (.invalidArgument ("copy size mismatch: " ++ src.describe ++ " -> " ++ dst.describe))
  else do
    let new ← a.read src
    a.modify dst fun _ => new

def describe (a : Arena) : String := Text.record "BufferAllocations" [("slots", toString a.size)]

/-- The slot exists and holds the slice to its end. -/
def Holds (a : Arena) (s : Slice) : Prop :=
  ∃ b, a.slots[s.index]? = some b ∧ s.offset + s.size ≤ b.length

theorem read_eq_ok_iff {a : Arena} {s : Slice} {bytes : Bytes} :
    a.read s = .ok bytes ↔
      ∃ b, a.slots[s.index]? = some b ∧ s.offset + s.size ≤ b.length ∧
        bytes = (b.drop s.offset).take s.size := by
  unfold read slot checkBounds
  cases h : a.slots[s.index]? with
  | none => simp [bind, Except.bind]
  | some b =>
    by_cases hb : s.offset + s.size ≤ b.length
    · simp [bind, Except.bind, hb, pure, Except.pure, eq_comm]
    · simp [bind, Except.bind, hb]

theorem exists_read_iff {a : Arena} {s : Slice} : (∃ b, a.read s = .ok b) ↔ a.Holds s := by
  simp only [read_eq_ok_iff, Holds]
  constructor
  · rintro ⟨_, b, h, hb, -⟩
    exact ⟨b, h, hb⟩
  · rintro ⟨b, h, hb⟩
    exact ⟨_, b, h, hb, rfl⟩

theorem length_of_read {a : Arena} {s : Slice} {bytes : Bytes} (h : a.read s = .ok bytes) :
    bytes.length = s.size := by
  obtain ⟨b, -, hb, rfl⟩ := read_eq_ok_iff.1 h
  simp; omega

end Arena

end OpFlow
