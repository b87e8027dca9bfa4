import OpFlow.Proofs.Machine.Nesting
import OpFlow.Proofs.Order.Site

/-!
Leaf operations that may wait. An operation does something as it is launched; then it has come to an
outcome, or it waits for an event, and goes on when that resolves. All that it does depends only on
the slots that it declares, and changes only those that it declares to write. The events resolve in
any order.
-/
namespace OpFlow

open Machine

/-- What is left of an operation: nothing but its outcome, or a change of the arena, and what is left
then, as the arena before the change says. -/
inductive Process
  | ended (outcome : Outcome)
  | going (change : Arena → Arena) (next : Arena → Process)

namespace Process

def step : Process → Arena → Arena × Process
  | ended o => fun a => (a, ended o)
  | going change next => fun a => (change a, next a)

/-- All that is left, in one go. -/
def run : Process → Arena → Arena × Outcome
  | ended o => fun a => (a, o)
  | going change next => fun a => (next a).run (change a)

def Confined (f : Footprint) : Process → Prop
  | ended _ => True
  | going change next => f.Confines (fun a => (change a, next a)) ∧ ∀ a, (next a).Confined f

variable {f : Footprint} {p : Process}

theorem run_step (p : Process) (a : Arena) : (p.step a).2.run (p.step a).1 = p.run a := by
  cases p <;> rfl

theorem Confined.confines_step (h : p.Confined f) : f.Confines p.step := by
  cases p with
  | ended o => exact .same fun _ _ _ => rfl
  | going change next => exact h.1

theorem Confined.step (h : p.Confined f) (a : Arena) : (p.step a).2.Confined f := by
  cases p with
  | ended o => trivial
  | going change next => exact h.2 a

theorem Confined.confines_run (h : p.Confined f) : f.Confines p.run := by
  induction p with
  | ended o => exact .same fun _ _ _ => rfl
  | going change next ih => exact h.1.andThen fun a => ih a (h.2 a)

end Process

/-- How leaf operations go about what they do. -/
structure Conduct (α : Type) [Leaf α] where
  process : α → Process
  confined : ∀ a, (process a).Confined (Leaf.footprint a)

variable {α : Type} [Leaf α]

def Conduct.meaning (P : Conduct α) : Meaning α where
  act a := (P.process a).run
  confined a := (P.confined a).confines_run

/-- An arena on which operations are executed, and what is left of those that wait for an event. -/
structure Bench where
  arena : Arena
  waiting : CallKey → Option Process := fun _ => none

namespace Bench

/-- A call goes on, until it waits for the next event or has come to its outcome. -/
def go (c : CallKey) (p : Process) (d : Bench) : Bench × List (Effect Empty) :=
  match p.step d.arena with
  | (arena, .ended o) => (⟨arena, Function.update d.waiting c none⟩, [.settle c o])
  | (arena, .going change next) =>
    (⟨arena, Function.update d.waiting c (some (.going change next))⟩, [])

/-- The event for which a call waits resolves. -/
def resolve (c : CallKey) (d : Bench) : Bench × List (Effect Empty) :=
  match d.waiting c with
  | some p => d.go c p
  | none => (d, [])

end Bench

def Conduct.backend (P : Conduct α) : Backend α Bench Empty where
  launch c _ a d := ((d.go c (P.process a)).1, .ok (d.go c (P.process a)).2)
  perform x _ := x.elim
  discard x _ := x.elim
  read _ s d := d.arena.read s

namespace Machine.Crew

/-- An execution goes on: a thread does what it has to, a runner gives a task, in any order, or the
event resolves for which some call waits. -/
inductive Proceeds (P : Conduct α) (s t : Crew α Bench Empty) : Prop
  | act {i : Nat} (hm : Move P.backend (.act i) s t)
  | take {i : Nat} {task : Task Empty} {rest : Runner (Task Empty)}
      (hm : Move P.backend (.take i task rest) s t)
  | resolve {c : CallKey} (hc : s.world.device.waiting c ≠ none)
      (hm : Move P.backend (.outside (Bench.resolve c)) s t)

/-- One execution of a host's program on a bench, from a world in which nothing has been executed
yet. -/
inductive Executes (P : Conduct α) (w : World α Bench Empty) (k : Nat) : Crew α Bench Empty → Prop
  | start (hw : w.IsFresh) (hwaiting : ∀ c, w.device.waiting c = none) {h : Host α}
      (hk : w.hosts[k]? = some h) : Executes P w k (execute k { world := w })
  | proceed {s t : Crew α Bench Empty} (hs : Executes P w k s) (hp : s.Proceeds P t) :
      Executes P w k t

end Machine.Crew

end OpFlow
