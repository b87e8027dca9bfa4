import OpFlow.Collective.Meeting

/-!
Generations of a rendezvous. The log of a meeting splits the accepted arrivals at a key into
generations: one begins with the first arrival after the end of the one before, and ends when every
rank has arrived or when its own clock runs out. The splitting looks at the log alone. What the
rendezvous keeps under the key is the last generation, if it has not ended.
-/
namespace OpFlow

variable {V κ : Type}

/-- A generation at a key: the cell its first arrival was handed, the ranks and values that
arrived in it, in order, and whether its clock has run out. -/
structure Generation (V : Type) where
  cell : Nat
  arrivals : List (Nat × V) := []
  timedOut : Bool := false

namespace Generation

def ranks (g : Generation V) : List Nat := g.arrivals.map Prod.fst

def missing (g : Generation V) (n : Nat) : List Nat := (List.range n).filter fun r => r ∉ g.ranks

def add (g : Generation V) (rank : Nat) (value : V) : Generation V :=
  { g with arrivals := g.arrivals ++ [(rank, value)] }

/-- The arrivals of a generation, each with the cell that all of them should have been handed. -/
def handed (g : Generation V) : List (Nat × V × Nat) := g.arrivals.map fun a => (a.1, a.2, g.cell)

/-- What a generation that has ended resolves to: the values by rank once all of them are there, or
the timeout that names the ranks that are not. -/
inductive Outcome (r : Rendezvous V κ) (k : RendezvousKey) (g : Generation V) :
    Except Error (List V) → Prop
  | full {values : List V} (alive : g.timedOut = false) (all : g.arrivals.length = k.size)
      (size : values.length = k.size)
      (ranked : ∀ rank value, (rank, value) ∈ g.arrivals → values[rank]? = some value) :
      Outcome r k g (.ok values)
  | late (timedOut : g.timedOut = true) (few : g.arrivals.length < k.size) :
      Outcome r k g (.error (r.timeoutError k g.arrivals.length (g.missing k.size)))

@[simp] theorem handed_add (g : Generation V) (rank : Nat) (value : V) :
    (g.add rank value).handed = g.handed ++ [(rank, value, g.cell)] := by simp [handed, add]

@[simp] theorem ranks_add (g : Generation V) (rank : Nat) (value : V) :
    (g.add rank value).ranks = g.ranks ++ [rank] := by simp [ranks, add]

end Generation

/-- The generations at one key: those that have ended, in order, and the one that waits. -/
structure Chronicle (V : Type) where
  ended : List (Generation V) := []
  waiting : Option (Generation V) := none

namespace Chronicle

def all (h : Chronicle V) : List (Generation V) := h.ended ++ h.waiting.toList

def join (h : Chronicle V) (n rank : Nat) (value : V) (cell : Nat) : Chronicle V :=
  let g := (h.waiting.getD { cell }).add rank value
  if g.arrivals.length < n then { h with waiting := some g }
  else { ended := h.ended ++ [g], waiting := none }

/-- A clock ends the generation it belongs to, if that one waits. -/
def ring (h : Chronicle V) (cell : Nat) : Chronicle V :=
  match h.waiting with
  | some g =>
    if g.cell = cell then { ended := h.ended ++ [{ g with timedOut := true }], waiting := none }
    else h
  | none => h

def observe (k : RendezvousKey) (h : Chronicle V) : Happening V → Chronicle V
  | .arrived j rank value (.ok c) => if j = k then h.join k.size rank value c else h
  | .fired j c => if j = k then h.ring c else h
  | .arrived _ _ _ (.error _) | .resolved _ _ => h

def ofLog (k : RendezvousKey) (log : List (Happening V)) : Chronicle V :=
  log.foldl (observe k) {}

@[simp] theorem ofLog_append (k : RendezvousKey) (log : List (Happening V)) (e : Happening V) :
    ofLog k (log ++ [e]) = (ofLog k log).observe k e := by simp [ofLog]

end Chronicle

namespace Happening

def accepted? (k : RendezvousKey) : Happening V → Option (Nat × V × Nat)
  | arrived j rank value (.ok c) => if j = k then some (rank, value, c) else none
  | _ => none

def result? (c : Nat) : Happening V → Option (Except Error (List V))
  | resolved d x => if d = c then some x else none
  | _ => none

end Happening

namespace Meeting

/-- The generations at a key so far. -/
def chronicle (m : Meeting V κ) (k : RendezvousKey) : Chronicle V := .ofLog k m.log

def accepted (m : Meeting V κ) (k : RendezvousKey) : List (Nat × V × Nat) :=
  m.log.filterMap (Happening.accepted? k)

def resolutions (m : Meeting V κ) (c : Nat) : List (Except Error (List V)) :=
  m.log.filterMap (Happening.result? c)

def promises (m : Meeting V κ) (c : Nat) : List (Except Error (List V)) :=
  m.due.filterMap fun d => if d.1 = c then some d.2 else none

/-- The generations of a meeting are kept apart. -/
structure Apart (r : Rendezvous V κ) (m : Meeting V κ) : Prop where
  /-- The accepted arrivals at a key are its generations one after the other, and each of them was
  handed the cell of its generation. -/
  split : ∀ k, (m.chronicle k).all.flatMap Generation.handed = m.accepted k
  /-- No two generations share a cell, at one key or at two. -/
  nodup : ∀ k, ((m.chronicle k).all.map Generation.cell).Nodup
  own : ∀ j k, ∀ g ∈ (m.chronicle j).all, ∀ h ∈ (m.chronicle k).all, g.cell = h.cell → j = k
  /-- The ranks of a generation are distinct and in range. -/
  ranks : ∀ k, ∀ g ∈ (m.chronicle k).all, g.arrivals ≠ [] ∧ g.ranks.Nodup ∧ ∀ r ∈ g.ranks, r < k.size
  /-- An arrival is turned away exactly if its rank is out of range or has already arrived in the
  generation that waits. -/
  answer : ∀ k rank value,
    match (m.desk.enter k rank value).2.answer with
    | .ok _ => rank < k.size ∧ ∀ g ∈ (m.chronicle k).waiting, rank ∉ g.ranks
    | .error e => e.kind = .invalidArgument ∧
        (k.size ≤ rank ∨ ∃ g ∈ (m.chronicle k).waiting, rank ∈ g.ranks)
  /-- The cell of a generation that waits has no result, and none is due. -/
  waiting : ∀ k, ∀ g ∈ (m.chronicle k).waiting,
    g.timedOut = false ∧ g.arrivals.length < k.size ∧ m.desk.result? g.cell = none ∧
      m.resolutions g.cell = [] ∧ m.promises g.cell = []
  /-- The cell of a generation that has ended resolves exactly once: either its one result is due
  and the cell is pending, or the cell was resolved to it and to nothing else. -/
  ended : ∀ k, ∀ g ∈ (m.chronicle k).ended, ∃ x, g.Outcome r k x ∧
    (m.desk.result? g.cell = none ∧ m.resolutions g.cell = [] ∧ m.promises g.cell = [x] ∨
      m.desk.result? g.cell = some x ∧ m.resolutions g.cell = [x] ∧ m.promises g.cell = [])
  /-- The clock of a generation that has ended changes nothing. -/
  late : ∀ k, ∀ g ∈ (m.chronicle k).ended,
    m.step (.fire k g.cell) = { m with log := m.log ++ [.fired k g.cell] } ∧
      ∀ j, (m.step (.fire k g.cell)).chronicle j = m.chronicle j

end Meeting

end OpFlow
