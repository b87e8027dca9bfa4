import OpFlow.Assoc
import OpFlow.Async.Cell
import OpFlow.Identity
import OpFlow.Text.Quoted

/-!
Rendezvous: the participants of an exchange arrive under a common key, each with its rank, and share
one cell, which the last arrival or the clock of the group settles. A group that has ended is
forgotten. What happens under the lock is one step (`enter`, `lapse`) that takes out the promise; it
is kept (`settle`) later, when others may already meet under the same key again.
-/
namespace OpFlow

/-- What the participants of one exchange agree on. Rank `i` belongs to the `i`th participant. -/
structure RendezvousKey where
  run : RunId
  participants : List DeviceId
  op : Int
  deriving DecidableEq, Repr, Inhabited

namespace RendezvousKey

def size (k : RendezvousKey) : Nat := k.participants.length

def display (k : RendezvousKey) : String :=
  k.run.display ++ "/op" ++ toString k.op ++ " [" ++
    ",".intercalate (k.participants.map DeviceId.display) ++ "]"

end RendezvousKey

/-- A group that waits for participants: its cell, the contribution of each rank so far, and how
many there are. -/
structure RendezvousGroup (V : Type) where
  cell : Nat
  slots : List (Option V)
  arrived : Nat := 0
  /-- Whether the promise to settle the cell is still in the group. -/
  promised : Bool := true
  deriving Repr, Inhabited

namespace RendezvousGroup

variable {V : Type}

def empty (cell n : Nat) : RendezvousGroup V := { cell, slots := List.replicate n none }

def missing (g : RendezvousGroup V) : List Nat :=
  (List.range g.slots.length).filter fun r => (g.slots[r]?.join).isNone

def add (g : RendezvousGroup V) (rank : Nat) (value : V) : RendezvousGroup V :=
  { g with slots := g.slots.set rank (some value), arrived := g.arrived + 1 }

end RendezvousGroup

/-- A meeting point for one kind of exchange, whose arrivals are described by `κ`. -/
structure Rendezvous (V κ : Type) where
  name : String
  /-- How long a group may wait, in milliseconds. -/
  timeout : Nat
  groups : Assoc RendezvousKey (RendezvousGroup V) := .empty
  cells : Cells (List V) κ := #[]
  deriving Inhabited

/-- What an arrival finds and leaves under the lock. -/
inductive Entrance (V : Type)
  | rejected (error : Error)
  /-- The group waits for others; a new one must be timed. -/
  | waiting (cell : Nat) (isNew : Bool)
  /-- The last arrival of a group, with the contributions in rank order if the promise was still
  in the group. -/
  | filled (cell : Nat) (promise : Option (List V))
  deriving Repr

namespace Entrance

variable {V : Type}

def answer : Entrance V → Except Error Nat
  | rejected e => .error e
  | waiting c _ | filled c _ => .ok c

end Entrance

/-- How an arrival is received. -/
inductive Arrival (κ : Type)
  | rejected (error : Error)
  /-- The first arrival of a new group, which must be timed. -/
  | opened (cell : Nat)
  | joined (cell : Nat)
  /-- The last arrival of a group; the earlier ones are woken in order. -/
  | completed (cell : Nat) (woken : List κ)
  deriving Repr

namespace Rendezvous

variable {V κ : Type}

def group? (r : Rendezvous V κ) (k : RendezvousKey) : Option (RendezvousGroup V) :=
  r.groups.get? k

def forget (r : Rendezvous V κ) (k : RendezvousKey) : Rendezvous V κ :=
  { r with groups := r.groups.erase k }

def store (r : Rendezvous V κ) (k : RendezvousKey) (g : RendezvousGroup V) : Rendezvous V κ :=
  { r with groups := r.groups.set k g }

def pendingGroups (r : Rendezvous V κ) : Nat := r.groups.size

/-- The group that waits under this key, or else a new one with a cell of its own. -/
def groupFor (r : Rendezvous V κ) (k : RendezvousKey) : Rendezvous V κ × RendezvousGroup V :=
  match r.group? k with
  | some g => (r, g)
  | none =>
    let (cells, cell) := r.cells.fresh
    ({ r with cells }, .empty cell k.size)

/-- Leaves a group after a contribution. If none is missing any more it is forgotten and its promise
taken; otherwise it waits on. -/
def leave (r : Rendezvous V κ) (k : RendezvousKey) (g : RendezvousGroup V) (isNew : Bool) :
    Rendezvous V κ × Entrance V :=
  if g.arrived < k.size then (r.store k g, .waiting g.cell isNew)
  else (r.forget k, .filled g.cell (if g.promised then some (g.slots.filterMap id) else none))

/-- The part of an arrival that is under the lock. -/
def enter (r : Rendezvous V κ) (k : RendezvousKey) (rank : Nat) (value : V) :
    Rendezvous V κ × Entrance V :=
  if k.size ≤ rank then
    (r, .rejected (.invalidArgument ("rank " ++ toString rank ++ " out of range for " ++
      toString k.size ++ " participants in " ++ k.display)))
  else
    let (r', g) := r.groupFor k
    if (g.slots[rank]?.join).isSome then
      (r', .rejected (.invalidArgument
        ("rank " ++ toString rank ++ " arrived twice at " ++ k.display)))
    else r'.leave k (g.add rank value) (r.group? k).isNone

/-- Keeps the promise that was taken out of a group, and hands out those who wait for its cell. -/
def settle (r : Rendezvous V κ) (cell : Nat) (result : Except Error (List V)) :
    Rendezvous V κ × List κ :=
  let (cells, woken) := r.cells.settle cell result
  ({ r with cells }, woken)

/-- What an arrival does once it has given the lock back: it keeps the promise it has taken. -/
def conclude (r : Rendezvous V κ) : Entrance V → Rendezvous V κ × Arrival κ
  | .rejected e => (r, .rejected e)
  | .waiting c true => (r, .opened c)
  | .waiting c false | .filled c none => (r, .joined c)
  | .filled c (some values) =>
    let (r, woken) := r.settle c (.ok values)
    (r, .completed c woken)

def arrive (r : Rendezvous V κ) (k : RendezvousKey) (rank : Nat) (value : V) :
    Rendezvous V κ × Arrival κ :=
  let (r, e) := r.enter k rank value
  r.conclude e

/-- What a group ends with that has waited too long for the ranks that are missing. -/
def timeoutError (r : Rendezvous V κ) (k : RendezvousKey) (arrived : Nat) (missing : List Nat) :
    Error :=
  .of .rendezvousTimeout (r.name ++ " rendezvous " ++ k.display ++ " timed out after " ++
    Text.duration r.timeout ++ ": " ++ toString arrived ++ " of " ++ toString k.size ++
    " arrived, missing ranks " ++ Text.bracketed (missing.map toString))

/-- The part of an expiry that is under the lock: forgets the group that waits under this key with
this cell, and gives the error its promise must be kept with, if the promise was still in it. The
time of any other group, even a later one under the same key, does not matter. -/
def lapse (r : Rendezvous V κ) (k : RendezvousKey) (cell : Nat) : Rendezvous V κ × Option Error :=
  match r.group? k with
  | some g =>
    if g.cell = cell then
      (r.forget k, if g.promised then some (r.timeoutError k g.arrived g.missing) else none)
    else (r, none)
  | none => (r, none)

/-- Ends the group that waits under this key with this cell, if it still does. -/
def expire (r : Rendezvous V κ) (k : RendezvousKey) (cell : Nat) : Rendezvous V κ × List κ :=
  match r.lapse k cell with
  | (r, some e) => r.settle cell (.error e)
  | (r, none) => (r, [])

/-- Lets `w` wait for a group's cell. -/
def register (r : Rendezvous V κ) (cell : Nat) (w : κ) : Rendezvous V κ :=
  { r with cells := r.cells.register cell w }

def result? (r : Rendezvous V κ) (cell : Nat) : Option (Except Error (List V)) :=
  r.cells.result? cell

def describe (r : Rendezvous V κ) : String :=
  Text.record "Rendezvous"
    [("name", Text.quoted r.name), ("timeout", Text.duration r.timeout),
      ("pending_groups", toString r.pendingGroups)]

@[simp] theorem group?_forget_self (r : Rendezvous V κ) (k : RendezvousKey) :
    (r.forget k).group? k = none := by simp [forget, group?]

theorem group?_forget_of_ne (r : Rendezvous V κ) {j k : RendezvousKey} (h : j ≠ k) :
    (r.forget j).group? k = r.group? k := r.groups.get?_erase_of_ne h

@[simp] theorem group?_store_self (r : Rendezvous V κ) (k : RendezvousKey) (g : RendezvousGroup V) :
    (r.store k g).group? k = some g := by simp [store, group?]

theorem group?_store_of_ne (r : Rendezvous V κ) {j k : RendezvousKey} (h : j ≠ k)
    (g : RendezvousGroup V) : (r.store j g).group? k = r.group? k := r.groups.get?_set_of_ne h g

@[simp] theorem cells_forget (r : Rendezvous V κ) (k : RendezvousKey) :
    (r.forget k).cells = r.cells := rfl

@[simp] theorem cells_store (r : Rendezvous V κ) (k : RendezvousKey) (g : RendezvousGroup V) :
    (r.store k g).cells = r.cells := rfl

theorem groupFor_of_some {r : Rendezvous V κ} {k : RendezvousKey} {g : RendezvousGroup V}
    (h : r.group? k = some g) : r.groupFor k = (r, g) := by simp [groupFor, h]

theorem groupFor_of_none {r : Rendezvous V κ} {k : RendezvousKey} (h : r.group? k = none) :
    r.groupFor k = ({ r with cells := r.cells.fresh.1 }, .empty r.cells.size k.size) := by
  simp [groupFor, h, Cells.fresh]

theorem groupFor_fst (r : Rendezvous V κ) (k : RendezvousKey) :
    (r.groupFor k).1 = r ∨ (r.groupFor k).1 = { r with cells := r.cells.fresh.1 } := by
  unfold groupFor
  split
  · exact .inl rfl
  · exact .inr rfl

theorem leave_not_rejected (r : Rendezvous V κ) (k : RendezvousKey) (g : RendezvousGroup V)
    (isNew : Bool) (e : Error) : (r.leave k g isNew).2 ≠ .rejected e := by
  unfold leave; split <;> simp

/-- A participant that is turned away leaves everything as it was. -/
theorem enter_rejected {r r' : Rendezvous V κ} {k : RendezvousKey} {rank : Nat} {value : V}
    {e : Error} (h : r.enter k rank value = (r', .rejected e)) : r' = r := by
  unfold enter at h
  split at h
  · simp_all
  · cases hg : r.group? k with
    | some g =>
      rw [groupFor_of_some hg] at h
      dsimp only at h
      split at h
      · simp_all
      · exact absurd (congrArg Prod.snd h) (leave_not_rejected _ _ _ _ _)
    | none =>
      -- a new group has every slot empty, so nobody is turned away from it
      rw [groupFor_of_none hg] at h
      have hslot : ((RendezvousGroup.empty r.cells.size k.size : RendezvousGroup V).slots[rank]?.join)
          = none := by
        simp only [RendezvousGroup.empty, List.getElem?_replicate]
        split <;> rfl
      dsimp only at h
      rw [hslot] at h
      exact absurd (congrArg Prod.snd h) (leave_not_rejected _ _ _ _ _)

theorem arrive_rejected {r r' : Rendezvous V κ} {k : RendezvousKey} {rank : Nat} {value : V}
    {e : Error} (h : r.arrive k rank value = (r', .rejected e)) : r' = r := by
  rcases hent : r.enter k rank value with ⟨q, e' | ⟨c, isNew⟩ | ⟨c, _ | values⟩⟩
  · obtain ⟨rfl, rfl⟩ : q = r' ∧ e' = e := by simpa [arrive, conclude, hent] using h
    exact enter_rejected hent
  · cases isNew <;> simp [arrive, conclude, hent] at h
  · simp [arrive, conclude, hent] at h
  · simp [arrive, conclude, hent] at h

theorem lapse_of_not_current {r : Rendezvous V κ} {k : RendezvousKey} {cell : Nat}
    (h : ∀ g, r.group? k = some g → g.cell ≠ cell) : r.lapse k cell = (r, none) := by
  unfold lapse
  split
  · rw [if_neg (h _ (by assumption))]
  · rfl

end Rendezvous

end OpFlow
