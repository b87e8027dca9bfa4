import OpFlow.Footprint

/-!
Hazard tracking: which earlier operations an operation must wait for. Each place remembers its last
writer and the readers since; a reader waits for the last writer, a writer for both, so the lists
stay linear in the footprints while every conflict is still ordered by a chain.
-/
namespace OpFlow

/-- What is known of one place: who wrote it last and who has read it since. -/
structure Hazard where
  lastWriter : Option Nat := none
  readers : List Nat := []
  deriving DecidableEq, Repr, Inhabited

namespace Hazard

/-- The operations that an access must wait for. -/
def awaited (h : Hazard) (write : Bool) : List Nat :=
  h.lastWriter.toList ++ if write then h.readers else []

/-- The place after operation `i` has accessed it. -/
def touched (h : Hazard) (i : Nat) (write : Bool) : Hazard :=
  if write then ⟨some i, []⟩ else { h with readers := h.readers ++ [i] }

end Hazard

abbrev Hazards := List (Place × Hazard)

namespace Hazards

def get : Hazards → Place → Hazard
  | [], _ => {}
  | (q, h) :: rest, p => if q = p then h else get rest p

def set : Hazards → Place → Hazard → Hazards
  | [], p, h => [(p, h)]
  | (q, g) :: rest, p, h => if q = p then (p, h) :: rest else (q, g) :: set rest p h

@[simp] theorem get_set_self (hs : Hazards) (p : Place) (h : Hazard) :
    (hs.set p h).get p = h := by
  induction hs with
  | nil => simp [set, get]
  | cons x rest ih =>
    simp only [set]
    split <;> simp_all [get]

theorem get_set_of_ne (hs : Hazards) {p q : Place} (h : Hazard) (hne : p ≠ q) :
    (hs.set p h).get q = hs.get q := by
  induction hs with
  | nil => simp [set, get, hne]
  | cons x rest ih =>
    simp only [set]
    split
    · simp_all [get]
    · simp [get, ih]

/-- Operation `i` makes its accesses one after the other: what each of them must wait for, and the
hazards that are left. -/
def meet (i : Nat) (hs : Hazards) : List (Place × Access) → List Nat × Hazards
  | [] => ([], hs)
  | (p, a) :: rest =>
    let h := hs.get p
    let (awaited, hs) := meet i (hs.set p (h.touched i a.isWrite)) rest
    (h.awaited a.isWrite ++ awaited, hs)

end Hazards

def distinct (xs : List Nat) : List Nat := Sorted.firsts id (Sorted.ofList (fun a b => a ≤ b) xs)

/-- The predecessors of each operation in turn, when `start` operations lie before them. -/
def predecessorsFrom (hs : Hazards) (start : Nat) : List Footprint → List (List Nat)
  | [] => []
  | f :: fs =>
    let (awaited, hs) := hs.meet start f.accesses
    distinct awaited :: predecessorsFrom hs (start + 1) fs

def predecessors (fs : List Footprint) : List (List Nat) := predecessorsFrom [] 0 fs

theorem groups_le : Sorted.Groups (fun a b : Nat => a ≤ b) id where
  trans _ _ _ := by simpa using Nat.le_trans
  total _ _ := by simpa using Nat.le_total _ _
  antisymm _ _ := by simpa using Nat.le_antisymm
  convex _ _ _ := by
    simp only [decide_eq_true_eq, id]
    omega

@[simp] theorem mem_distinct {a : Nat} {xs : List Nat} : a ∈ distinct xs ↔ a ∈ xs := by
  rw [distinct, groups_le.mem_firsts]
  exact ⟨And.left, fun h => ⟨h, fun y _ hy => by simpa using Nat.le_of_eq hy.symm⟩⟩

theorem nodup_distinct (xs : List Nat) : (distinct xs).Nodup := by
  simpa [distinct] using groups_le.nodup_firsts xs

@[simp] theorem length_predecessorsFrom (hs : Hazards) (start : Nat) (fs : List Footprint) :
    (predecessorsFrom hs start fs).length = fs.length := by
  induction fs generalizing hs start with
  | nil => rfl
  | cons f fs ih => simp [predecessorsFrom, ih]

@[simp] theorem length_predecessors (fs : List Footprint) :
    (predecessors fs).length = fs.length := by simp [predecessors]

end OpFlow
