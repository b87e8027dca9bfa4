import OpFlow.Assoc
import OpFlow.Machine.Schedule
import OpFlow.Operation

/-!
The state of one execution of a program: its runs, one for each region that is being executed, and
its calls, one for each operation in flight. A run lies inside the calls that enclose it, so the
places of runs and calls are paths from the outermost region inwards.
-/
namespace OpFlow.Machine

/-- The calls around a run, innermost first, each with the number of its nested run. The outermost
run has none. -/
abbrev Scope := List (Nat × Nat)

/-- A run of a region, among all runs of all executions on all hosts. -/
structure RunKey where
  host : Nat
  execution : Nat
  scope : Scope
  deriving DecidableEq, Repr, Inhabited

/-- A call of an operation: the run it belongs to, and its node in the region. -/
structure CallKey where
  run : RunKey
  node : Nat
  deriving DecidableEq, Repr, Inhabited

def CallKey.nested (c : CallKey) (number : Nat) : RunKey :=
  { c.run with scope := (c.node, number) :: c.run.scope }

def RunKey.caller? (r : RunKey) : Option CallKey :=
  match r.scope with
  | [] => none
  | (node, _) :: scope => some ⟨{ r with scope }, node⟩

@[simp] theorem CallKey.caller?_nested (c : CallKey) (number : Nat) :
    (c.nested number).caller? = some c := rfl

/-- How far something that was started has come, as its starter sees it. -/
inductive Progress
  /-- The start has not returned yet. -/
  | entered
  /-- It ended before its start returned. -/
  | settled (outcome : Outcome)
  /-- Its start has returned; whoever started it goes on when it ends. -/
  | awaited
  deriving Repr, Inhabited

/-- A loop in flight. -/
structure LoopState where
  iteration : Nat := 0
  inBody : Bool := false
  /-- Nested runs started so far. -/
  started : Nat := 0
  /-- The nested run that was started last. -/
  progress : Progress := .entered
  deriving Repr, Inhabited

structure Call where
  progress : Progress := .entered
  loop : Option LoopState := none
  deriving Repr, Inhabited

/-- How a run proceeds: one operation after the other, or by a schedule. A scheduled run lives as
long as someone holds it: its starter, a task that was submitted, or a call that is awaited. -/
inductive RunMode
  | ordered
  | scheduled (schedule : Schedule) (holders : Nat)
  deriving Inhabited

/-- A region that is being executed. -/
structure Run (α : Type) where
  region : Program α
  mode : RunMode
  deriving Inhabited

/-- Counters over all executions of one program. -/
structure Stats where
  executions : Nat := 0
  sequential : Nat := 0
  launched : Nat := 0
  failed : Nat := 0
  skipped : Nat := 0
  deriving DecidableEq, Repr, Inhabited

structure Execution (α : Type) where
  outcome : Option Outcome := none
  runs : Assoc Scope (Run α) := {}
  calls : Assoc (Scope × Nat) Call := {}
  deriving Inhabited

/-- A program with its runner, its counters and its executions. -/
structure Host (α : Type) where
  program : Program α
  runner : Option Nat := none
  stats : Stats := {}
  executions : Array (Execution α) := #[]
  deriving Inhabited

end OpFlow.Machine
