/-!
Element types of the buffers that take part in reductions, and the types a branch index may have.
-/
namespace OpFlow

inductive ElementType
  | pred
  | u8
  | s32
  | s64
  | f32
  | f64
  deriving DecidableEq, Repr, Inhabited

namespace ElementType

def width : ElementType → Nat
  | pred | u8 => 1
  | s32 | f32 => 4
  | s64 | f64 => 8

def describe : ElementType → String
  | pred => "Pred"
  | u8 => "U8"
  | s32 => "S32"
  | s64 => "S64"
  | f32 => "F32"
  | f64 => "F64"

theorem width_pos (t : ElementType) : 0 < t.width := by cases t <;> decide

end ElementType

end OpFlow
