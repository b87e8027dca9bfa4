import OpFlow.Buffer.Slice

/-!
Resources: shared state that lives outside the arena, such as an ordering token or a generator.
An operation declares which resources it touches by the same rule as slots: two uses of one
resource conflict when one of them writes.
-/
namespace OpFlow

inductive ResourceKind
  | token
  | communicator
  | rngState
  deriving DecidableEq, Repr, Inhabited

def ResourceKind.describe : ResourceKind → String
  | token => "Token"
  | communicator => "CollectiveCommunicator"
  | rngState => "RngState"

/-- A resource, told from all others by its number. -/
structure Resource where
  kind : ResourceKind
  id : Nat
  deriving DecidableEq, Repr, Inhabited

structure ResourceUse where
  resource : Resource
  access : Access
  deriving DecidableEq, Repr, Inhabited

namespace ResourceUse

def read (r : Resource) : ResourceUse := ⟨r, .read⟩
def write (r : Resource) : ResourceUse := ⟨r, .write⟩

def conflicts (a b : ResourceUse) : Bool :=
  a.resource.id == b.resource.id && a.access.conflicts b.access

theorem conflicts_comm (a b : ResourceUse) : a.conflicts b = b.conflicts a := by
  simp [conflicts, Access.conflicts_comm a.access, Bool.beq_comm (a := a.resource.id)]

end ResourceUse

end OpFlow
