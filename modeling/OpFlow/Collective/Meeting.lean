import OpFlow.Collective.Rendezvous

/-!
Interleavings at one rendezvous. A meeting is a rendezvous in the midst of many calls and clocks,
with a log of what has happened so far. It moves by whole critical sections, in any order: an
arrival, the clock of a group, the keeping of a promise that was taken out earlier, or a participant
who begins to wait for a cell.
-/
namespace OpFlow

/-- What has happened at a rendezvous. -/
inductive Happening (V : Type)
  /-- A participant arrived and was handed a cell, or turned away. -/
  | arrived (key : RendezvousKey) (rank : Nat) (value : V) (answer : Except Error Nat)
  /-- The clock of the group with this cell ran out. -/
  | fired (key : RendezvousKey) (cell : Nat)
  /-- The promise of this cell was kept. -/
  | resolved (cell : Nat) (result : Except Error (List V))
  deriving Repr

def Entrance.due {V : Type} : Entrance V → List (Nat × Except Error (List V))
  | filled c (some values) => [(c, .ok values)]
  | rejected _ | waiting _ _ | filled _ none => []

/-- A rendezvous in the midst of calls: the promises taken but not yet kept, and the log. -/
structure Meeting (V κ : Type) where
  desk : Rendezvous V κ
  due : List (Nat × Except Error (List V)) := []
  log : List (Happening V) := []

namespace Meeting

variable {V κ : Type}

inductive Move (V κ : Type)
  | arrive (key : RendezvousKey) (rank : Nat) (value : V)
  /-- The clock of a group runs out, whether or not the group still waits. -/
  | fire (key : RendezvousKey) (cell : Nat)
  /-- The `i`th promise that is due is kept. -/
  | keep (i : Nat)
  | wait (cell : Nat) (w : κ)

def step (m : Meeting V κ) : Move V κ → Meeting V κ
  | .arrive k rank value =>
    let (desk, e) := m.desk.enter k rank value
    { desk, due := m.due ++ e.due, log := m.log ++ [.arrived k rank value e.answer] }
  | .fire k c =>
    let (desk, e) := m.desk.lapse k c
    { desk, due := m.due ++ (e.map fun e => (c, .error e)).toList, log := m.log ++ [.fired k c] }
  | .keep i =>
    match m.due[i]? with
    | some (c, x) =>
      { desk := (m.desk.settle c x).1, due := m.due.eraseIdx i, log := m.log ++ [.resolved c x] }
    | none => m
  | .wait c w => { m with desk := m.desk.register c w }

def run (m : Meeting V κ) (moves : List (Move V κ)) : Meeting V κ := moves.foldl step m

def start (name : String) (timeout : Nat) : Meeting V κ := { desk := { name, timeout } }

theorem desk_arrive (m : Meeting V κ) (k : RendezvousKey) (rank : Nat) (value : V)
    (h : m.due = []) :
    (m.desk.arrive k rank value).1 = ((m.step (.arrive k rank value)).step (.keep 0)).desk := by
  simp only [step, Rendezvous.arrive, h, List.nil_append]
  rcases m.desk.enter k rank value with ⟨r, e | ⟨c, isNew⟩ | ⟨c, _ | values⟩⟩
  · rfl
  · cases isNew <;> rfl
  · rfl
  · rfl

theorem desk_expire (m : Meeting V κ) (k : RendezvousKey) (c : Nat) (h : m.due = []) :
    (m.desk.expire k c).1 = ((m.step (.fire k c)).step (.keep 0)).desk := by
  simp only [step, Rendezvous.expire, h, List.nil_append]
  rcases m.desk.lapse k c with ⟨r, _ | e⟩ <;> rfl

end Meeting

end OpFlow
