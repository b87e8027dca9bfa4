import OpFlow.Proofs.Machine.Crew
import OpFlow.Proofs.Schedule.Counters
import Mathlib.Logic.Function.Basic

/-!
What has become of each node of a run. A node waits until its predecessors have completed, then its
turn comes, it is called and runs, and in the end it has ended, was skipped, or its task was lost.
The state of a node fixes what is left of it on threads, in queues and in the log.
-/
namespace OpFlow

namespace Machine

/-- What threads, queues and the log hold of one node. -/
inductive Mark
  | turn
  | queued
  | call
  | returned
  | launched
  | skipped
  | dropped
  | ended (outcome : Outcome)
  deriving DecidableEq

def Mark.isFixed : Mark → Bool
  | call | returned | launched | skipped | dropped | ended _ => true
  | turn | queued => false

inductive NodeState
  | waiting
  /-- Its predecessors have completed, and it is to be visited. -/
  | due
  | called
  | running (progress : Progress)
  | dropped
  | skipped
  | ended (outcome : Outcome)

namespace NodeState

def isStill : NodeState → Bool
  | waiting | dropped | skipped | ended _ => true
  | due | called | running _ => false

def isWaiting : NodeState → Bool
  | waiting => true
  | _ => false

def isDone : NodeState → Bool
  | skipped | ended _ => true
  | _ => false

def isBad : NodeState → Bool
  | skipped | ended (.error _) => true
  | _ => false

def isSkipped : NodeState → Bool
  | skipped => true
  | _ => false

def isOut : NodeState → Bool
  | called | running _ => true
  | _ => false

def isTaken : NodeState → Bool
  | called | running _ | ended _ => true
  | _ => false

def progress? : NodeState → Option Progress
  | running p => some p
  | _ => none

def isAwaited : NodeState → Bool
  | running .awaited => true
  | _ => false

def isDue : NodeState → Bool
  | due => true
  | _ => false

def endsWith : NodeState → Outcome → Bool
  | ended o, o' => o = o'
  | _, _ => false

/-- How many marks of a kind a node in this state has. -/
def weight : NodeState → Mark → Nat
  | called, .call => 1
  | running .entered, .returned | running (.settled _), .returned => 1
  | running _, .launched | ended _, .launched => 1
  | skipped, .skipped => 1
  | dropped, .dropped => 1
  | ended o, .ended o' => if o = o' then 1 else 0
  | _, _ => 0

section Weight

variable (k : Mark) (o : Outcome) (p : Progress)

@[simp] theorem weight_waiting : waiting.weight k = 0 := by cases k <;> rfl

@[simp] theorem weight_due : due.weight k = 0 := by cases k <;> rfl

@[simp] theorem weight_called : called.weight k = if k = .call then 1 else 0 := by cases k <;> rfl

@[simp] theorem weight_entered_returned : (running .entered).weight .returned = 1 := rfl

@[simp] theorem weight_settled_returned : (running (.settled o)).weight .returned = 1 := rfl

@[simp] theorem weight_awaited_returned : (running .awaited).weight .returned = 0 := rfl

@[simp] theorem weight_running (hk : k ≠ .returned) :
    (running p).weight k = if k = .launched then 1 else 0 := by
  cases k with
  | returned => exact absurd rfl hk
  | _ => cases p <;> rfl

@[simp] theorem weight_dropped : dropped.weight k = if k = .dropped then 1 else 0 := by
  cases k <;> rfl

@[simp] theorem weight_skipped : skipped.weight k = if k = .skipped then 1 else 0 := by
  cases k <;> rfl

@[simp] theorem weight_ended :
    (ended o).weight k = if k = .launched ∨ .ended o = k then 1 else 0 := by
  cases k with
  | ended o' => simp [weight]
  | _ => rfl

end Weight

/-- The call of a node and its marks, counted, are those of this state. -/
structure Shown (x : NodeState) (progress : Option Progress) (marks : Mark → Nat) : Prop where
  progress : progress = x.progress?
  due : marks .turn + marks .queued = x.isDue.toNat
  fixed : ∀ k, k.isFixed → marks k = x.weight k

theorem Shown.congr {x : NodeState} {p p' : Option Progress} {m m' : Mark → Nat}
    (h : x.Shown p m) (hp : p' = p) (hm : ∀ k, m' k = m k) : x.Shown p' m' := by
  obtain rfl : m' = m := funext hm
  exact hp ▸ h

theorem Shown.eq_due {x : NodeState} {p : Option Progress} {m : Mark → Nat} (h : x.Shown p m)
    (hm : 0 < m .turn + m .queued) : x = .due := by
  have := h.due
  cases x <;> simp_all [isDue]

theorem Shown.eq_called {x : NodeState} {p : Option Progress} {m : Mark → Nat} (h : x.Shown p m)
    (hm : 0 < m .call) : x = .called := by
  have := h.fixed .call rfl
  cases x <;> simp_all

theorem Shown.eq_running {x : NodeState} {p : Progress} {m : Mark → Nat}
    (h : x.Shown (some p) m) : x = .running p := by
  have := h.progress
  cases x <;> simp_all [progress?]

theorem Shown.eq_returning {x : NodeState} {p : Option Progress} {m : Mark → Nat}
    (h : x.Shown p m) (hm : 0 < m .returned) :
    x = .running .entered ∨ ∃ o, x = .running (.settled o) := by
  have := h.fixed .returned rfl
  cases x with
  | running q => cases q <;> simp_all
  | _ => simp_all

theorem isStill_of_quiet {x : NodeState} (hdue : x.isDue.toNat = 0) (hcall : x.weight .call = 0)
    (hreturned : x.weight .returned = 0) (hawaited : x.isAwaited.toNat = 0) : x.isStill := by
  cases x with
  | running p => cases p <;> simp_all [isAwaited]
  | _ => simp_all [isStill, isDue]

theorem isStill_of_isDone {x : NodeState} (h : x.isDone) : x.isStill := by
  cases x <;> simp_all [isDone, isStill]

theorem isDone_of_isBad {x : NodeState} (h : x.isBad) : x.isDone := by
  cases x <;> simp_all [isDone, isBad]

theorem isDone_eq_false_of_isStill {x : NodeState} (h : x.isStill = false) : x.isDone = false := by
  cases x <;> simp_all [isDone, isStill]

theorem isBad_eq_false_of_isStill {x : NodeState} (h : x.isStill = false) : x.isBad = false := by
  cases x <;> simp_all [isBad, isStill]

theorem isWaiting_eq_false_of_isStill {x : NodeState} (h : x.isStill = false) :
    x.isWaiting = false := by
  cases x <;> simp_all [isWaiting, isStill]

theorem isStill_eq_false_of_isOut {x : NodeState} (h : x.isOut) : x.isStill = false := by
  cases x <;> simp_all [isOut, isStill]

theorem isTaken_of_isOut {x : NodeState} (h : x.isOut) : x.isTaken := by
  cases x <;> simp_all [isOut, isTaken]

theorem isDue_eq_false_of_isOut {x : NodeState} (h : x.isOut) : x.isDue = false := by
  cases x <;> simp_all [isOut, isDue]

theorem isSkipped_eq_false_of_isOut {x : NodeState} (h : x.isOut) : x.isSkipped = false := by
  cases x <;> simp_all [isOut, isSkipped]

theorem ne_ended_of_isOut {x : NodeState} (h : x.isOut) (o : Outcome) : x ≠ .ended o := by
  rintro rfl
  cases h

end NodeState

def infoAt (region : Program α) (node : Nat) : OpInfo :=
  ((region.ops[node]?).map Operation.info).getD { name := "" }

variable {α : Type} [Leaf α]

structure FollowsGraph (region : Program α) (st : Nat → NodeState) : Prop where
  due : ∀ j, (st j).isWaiting = false ↔
    j < region.ops.length ∧ ∀ i ∈ region.graph.predsOf j, (st i).isDone
  skipped : ∀ j, (st j).isSkipped → ∃ i ∈ region.graph.predsOf j, (st i).isBad
  taken : ∀ j, (st j).isTaken → ∀ i ∈ region.graph.predsOf j, (st i).isBad = false

structure FollowsOrder (region : Program α) (st : Nat → NodeState) : Prop where
  due : ∀ j, (st j).isWaiting = false ↔ j < region.ops.length ∧ ∀ i < j, (st i).endsWith (.ok ())
  taken : ∀ j, (st j).isWaiting = false → (st j).isTaken

namespace FollowsGraph

variable {region : Program α} {st : Nat → NodeState}

theorem start : FollowsGraph region fun j =>
    if j ∈ region.graph.sources then NodeState.due else .waiting := by
  have hmem : ∀ j, j ∈ region.graph.sources ↔
      j < region.ops.length ∧ region.graph.predsOf j = [] := fun j => by
    simp [Graph.sources, Region.graph, Region.length_footprints]
  refine ⟨fun j => ?_, fun j hj => ?_, fun j hj => ?_⟩
  · simp only [hmem]
    by_cases hj : j < region.ops.length ∧ region.graph.predsOf j = []
    · simp [hj, NodeState.isWaiting]
    · rw [if_neg hj]
      simp only [NodeState.isWaiting, Bool.true_eq_false, false_iff, not_and]
      rintro hlt hdone
      obtain ⟨i, hi⟩ := List.exists_mem_of_ne_nil _ fun h => hj ⟨hlt, h⟩
      have hi' := hdone i hi
      split at hi' <;> simp [NodeState.isDone] at hi'
  · split at hj <;> simp [NodeState.isSkipped] at hj
  · split at hj <;> simp [NodeState.isTaken] at hj

theorem lt_length (h : FollowsGraph region st) {j : Nat} (hj : (st j).isWaiting = false) :
    j < region.ops.length := ((h.due j).1 hj).1

theorem lt_of_mem_predsOf {region : Program α} {i j : Nat}
    (h : i ∈ region.graph.predsOf j) : i < j :=
  Graph.lt_of_edge_build (show region.graph.Edge i j from h)

theorem isDone_update {st : Nat → NodeState} {j : Nat} {x : NodeState}
    (hj : (st j).isStill = false) (hd : x.isDone = false) (i : Nat) :
    (Function.update st j x i).isDone = (st i).isDone := by
  by_cases hi : i = j
  · subst hi
    simp [hd, NodeState.isDone_eq_false_of_isStill hj]
  · simp [hi]

theorem isBad_update {st : Nat → NodeState} {j : Nat} {x : NodeState}
    (hj : (st j).isStill = false) (hd : x.isDone = false) (i : Nat) :
    (Function.update st j x i).isBad = (st i).isBad := by
  by_cases hi : i = j
  · subst hi
    rw [Function.update_self, NodeState.isBad_eq_false_of_isStill hj]
    cases hb : x.isBad
    · rfl
    · rw [NodeState.isDone_of_isBad hb] at hd
      cases hd
  · simp [hi]

/-- A node moves on without completing. -/
theorem update (h : FollowsGraph region st) {j : Nat} {x : NodeState}
    (hj : (st j).isStill = false) (hx : x.isWaiting = false) (hd : x.isDone = false)
    (ht : x.isTaken → ∀ i ∈ region.graph.predsOf j, (st i).isBad = false) :
    FollowsGraph region (Function.update st j x) := by
  refine ⟨fun k => ?_, fun k => ?_, fun k => ?_⟩
  · simp only [isDone_update hj hd]
    by_cases hk : k = j
    · subst hk
      simpa [hx] using (h.due k).1 (NodeState.isWaiting_eq_false_of_isStill hj)
    · simpa [hk] using h.due k
  · simp only [isBad_update hj hd]
    by_cases hk : k = j
    · subst hk
      intro hs
      cases x <;> simp_all [NodeState.isSkipped, NodeState.isDone]
    · simpa [hk] using h.skipped k
  · simp only [isBad_update hj hd]
    by_cases hk : k = j
    · subst hk
      simpa using ht
    · simpa [hk] using h.taken k

def completed (st : Nat → NodeState) (j : Nat) (x : NodeState) (ready : List Nat) :
    Nat → NodeState :=
  fun k => if k = j then x else if k ∈ ready then .due else st k

def IsReady (region : Program α) (st : Nat → NodeState) (j : Nat) (ready : List Nat) : Prop :=
  ∀ k, k ∈ ready ↔ j ∈ region.graph.predsOf k ∧
    ∀ i ∈ region.graph.predsOf k, Schedule.mark (fun i => (st i).isDone) j true i

section Complete

variable {j : Nat} {x : NodeState} {ready : List Nat}

theorem isWaiting_of_isReady (h : FollowsGraph region st) (hj : (st j).isStill = false)
    (hr : IsReady region st j ready) {k : Nat} (hk : k ∈ ready) : (st k).isWaiting := by
  by_contra hw
  have hdone := ((h.due k).1 (by simpa using hw)).2 j ((hr k).1 hk).1
  rw [NodeState.isDone_eq_false_of_isStill hj] at hdone
  cases hdone

theorem isDone_completed (h : FollowsGraph region st) (hj : (st j).isStill = false)
    (hd : x.isDone) (hr : IsReady region st j ready) (i : Nat) :
    (completed st j x ready i).isDone = Schedule.mark (fun i => (st i).isDone) j true i := by
  simp only [completed, Schedule.mark]
  split
  · simpa using hd
  · split
    case isTrue hi =>
      have := h.isWaiting_of_isReady hj hr hi
      cases hx : st i <;> simp_all [NodeState.isWaiting, NodeState.isDone]
    case isFalse => rfl

theorem isBad_completed (h : FollowsGraph region st) (hj : (st j).isStill = false)
    (hr : IsReady region st j ready) (i : Nat) :
    (completed st j x ready i).isBad = Schedule.mark (fun i => (st i).isBad) j x.isBad i := by
  simp only [completed, Schedule.mark]
  split
  · rfl
  · split
    case isTrue hi =>
      have := h.isWaiting_of_isReady hj hr hi
      cases hx : st i <;> simp_all [NodeState.isWaiting, NodeState.isBad]
    case isFalse => rfl

theorem ne_and_lt_of_isReady (hr : IsReady region st j ready) {k : Nat} (hk : k ∈ ready) :
    k ≠ j ∧ k < region.ops.length := by
  have hedge : region.graph.Edge j k := ((hr k).1 hk).1
  have := Graph.lt_of_edge_build hedge
  have := Graph.lt_length_of_edge_build hedge
  rw [Region.length_footprints] at this
  omega

theorem due_completed (h : FollowsGraph region st) (hj : (st j).isStill = false) (hd : x.isDone)
    (hr : IsReady region st j ready) (k : Nat) :
    (completed st j x ready k).isWaiting = false ↔ k < region.ops.length ∧
      ∀ i ∈ region.graph.predsOf k, (completed st j x ready i).isDone := by
  have hjdue := (h.due j).1 (NodeState.isWaiting_eq_false_of_isStill hj)
  simp only [h.isDone_completed hj hd hr]
  by_cases hkj : k = j
  · subst hkj
    have hw : x.isWaiting = false := by
      cases x <;> simp_all [NodeState.isDone, NodeState.isWaiting]
    have hne : ∀ i ∈ region.graph.predsOf k, i ≠ k := fun i hi => by
      have := lt_of_mem_predsOf hi
      omega
    simp only [completed, if_true, hw, true_iff]
    refine ⟨hjdue.1, fun i hi => ?_⟩
    rw [Schedule.mark, if_neg (hne i hi)]
    exact hjdue.2 i hi
  · by_cases hkr : k ∈ ready
    · simp only [completed, hkj, hkr, if_true, if_false, NodeState.isWaiting, true_iff]
      exact ⟨(ne_and_lt_of_isReady hr hkr).2, ((hr k).1 hkr).2⟩
    · simp only [completed, hkj, hkr, if_false, h.due k]
      refine and_congr_right fun _ => ⟨fun hall i hi => ?_, fun hall i hi => ?_⟩
      · rw [Schedule.mark]
        split
        · rfl
        · exact hall i hi
      · have hmem : j ∉ region.graph.predsOf k := fun hmem => hkr ((hr k).2 ⟨hmem, hall⟩)
        have := hall i hi
        rwa [Schedule.mark, if_neg fun hij : i = j => hmem (hij ▸ hi)] at this

theorem skipped_completed (h : FollowsGraph region st) (hj : (st j).isStill = false)
    (hr : IsReady region st j ready)
    (hs : x.isSkipped → ∃ i ∈ region.graph.predsOf j, (st i).isBad) {k : Nat}
    (hk : (completed st j x ready k).isSkipped) :
    ∃ i ∈ region.graph.predsOf k, (completed st j x ready i).isBad := by
  have hjbad := NodeState.isBad_eq_false_of_isStill hj
  simp only [h.isBad_completed hj hr]
  have hlift : (∃ i ∈ region.graph.predsOf k, (st i).isBad) →
      ∃ i ∈ region.graph.predsOf k, Schedule.mark (fun i => (st i).isBad) j x.isBad i := by
    rintro ⟨i, hi, hb⟩
    refine ⟨i, hi, ?_⟩
    have hij : i ≠ j := fun hij => by simp_all
    rwa [Schedule.mark, if_neg hij]
  by_cases hkj : k = j
  · subst hkj
    exact hlift (hs (by simpa [completed] using hk))
  · by_cases hkr : k ∈ ready
    · simp [completed, hkj, hkr, NodeState.isSkipped] at hk
    · exact hlift (h.skipped k (by simpa [completed, hkj, hkr] using hk))

theorem taken_completed (h : FollowsGraph region st) (hj : (st j).isStill = false)
    (hr : IsReady region st j ready)
    (ht : x.isTaken → ∀ i ∈ region.graph.predsOf j, (st i).isBad = false) {k : Nat}
    (hk : (completed st j x ready k).isTaken) :
    ∀ i ∈ region.graph.predsOf k, (completed st j x ready i).isBad = false := by
  have hjdone := NodeState.isDone_eq_false_of_isStill hj
  simp only [h.isBad_completed hj hr]
  have hlift : j ∉ region.graph.predsOf k →
      (∀ i ∈ region.graph.predsOf k, (st i).isBad = false) →
      ∀ i ∈ region.graph.predsOf k,
        Schedule.mark (fun i => (st i).isBad) j x.isBad i = false := by
    intro hmem hall i hi
    rw [Schedule.mark, if_neg fun hij : i = j => hmem (hij ▸ hi)]
    exact hall i hi
  by_cases hkj : k = j
  · subst hkj
    have hmem : k ∉ region.graph.predsOf k := fun hmem => by
      have := lt_of_mem_predsOf hmem
      omega
    exact hlift hmem (ht (by simpa [completed] using hk))
  · by_cases hkr : k ∈ ready
    · simp [completed, hkj, hkr, NodeState.isTaken] at hk
    · have hk' : (st k).isTaken := by simpa [completed, hkj, hkr] using hk
      have hkw : (st k).isWaiting = false := by
        cases hx : st k <;> simp_all [NodeState.isTaken, NodeState.isWaiting]
      have hmem : j ∉ region.graph.predsOf k := fun hmem => by
        have := ((h.due k).1 hkw).2 j hmem
        simp_all
      exact hlift hmem (h.taken k hk')

theorem complete (h : FollowsGraph region st) (hj : (st j).isStill = false) (hd : x.isDone)
    (hr : IsReady region st j ready)
    (hs : x.isSkipped → ∃ i ∈ region.graph.predsOf j, (st i).isBad)
    (ht : x.isTaken → ∀ i ∈ region.graph.predsOf j, (st i).isBad = false) :
    FollowsGraph region (completed st j x ready) where
  due := h.due_completed hj hd hr
  skipped _ hk := h.skipped_completed hj hr hs hk
  taken _ hk := h.taken_completed hj hr ht hk

end Complete

end FollowsGraph

namespace FollowsOrder

variable {region : Program α} {st : Nat → NodeState} {j : Nat}

omit [Leaf α]

theorem start (hne : region.ops ≠ []) :
    FollowsOrder region fun j => if j = 0 then NodeState.called else .waiting := by
  have hpos := List.length_pos_iff.2 hne
  refine ⟨fun j => ?_, fun j hj => ?_⟩
  · by_cases hj : j = 0
    · simp [hj, NodeState.isWaiting, hpos]
    · simp only [hj, if_false, NodeState.isWaiting, Bool.true_eq_false, false_iff, not_and]
      intro _ hall
      have := hall 0 (by omega)
      simp [NodeState.endsWith] at this
  · split at hj
    · simp_all [NodeState.isTaken]
    · simp [NodeState.isWaiting] at hj

theorem lt_length (h : FollowsOrder region st) (hj : (st j).isWaiting = false) :
    j < region.ops.length := ((h.due j).1 hj).1

theorem isWaiting_of_lt (h : FollowsOrder region st) (hj : (st j).isStill = false) {k : Nat}
    (hk : j < k) : (st k).isWaiting := by
  by_contra hw
  have := ((h.due k).1 (by simpa using hw)).2 j hk
  cases hx : st j <;> simp_all [NodeState.endsWith, NodeState.isStill]

/-- An operation moves on without ending. -/
theorem update (h : FollowsOrder region st) {x : NodeState} (hj : (st j).isStill = false)
    (ht : x.isTaken) (hd : x.isDone = false) : FollowsOrder region (Function.update st j x) := by
  have hends : ∀ i, (Function.update st j x i).endsWith (.ok ()) = (st i).endsWith (.ok ()) := by
    intro i
    by_cases hi : i = j
    · subst hi
      cases hx : st i <;> cases x <;>
        simp_all [NodeState.endsWith, NodeState.isStill, NodeState.isDone]
    · simp [hi]
  have hxw : x.isWaiting = false := by
    cases x <;> simp_all [NodeState.isTaken, NodeState.isWaiting]
  refine ⟨fun k => ?_, fun k hk => ?_⟩
  · simp only [hends]
    by_cases hkj : k = j
    · subst hkj
      simpa [hxw] using (h.due k).1 (NodeState.isWaiting_eq_false_of_isStill hj)
    · simpa [hkj] using h.due k
  · by_cases hkj : k = j
    · subst hkj
      simpa using ht
    · exact (by simpa [hkj] using h.taken k (by simpa [hkj] using hk))

/-- The states once operation `j` has ended and the next one is to be called. -/
def ended (region : Program α) (st : Nat → NodeState) (j : Nat) (o : Outcome) : Nat → NodeState :=
  fun k =>
    if k = j then .ended o
    else if k = j + 1 ∧ o = .ok () ∧ j + 1 < region.ops.length then .called
    else st k

theorem complete (h : FollowsOrder region st) (hj : (st j).isStill = false) (o : Outcome) :
    FollowsOrder region (ended region st j o) := by
  have hjdue := (h.due j).1 (NodeState.isWaiting_eq_false_of_isStill hj)
  have hbefore : ∀ i, i < j → ended region st j o i = st i := fun i hi => by
    have h1 : i ≠ j := by omega
    have h2 : i ≠ j + 1 := by omega
    simp [ended, h1, h2]
  have hbeforeOk : ∀ k, k ≤ j → (∀ i < k, (ended region st j o i).endsWith (.ok ())) := by
    intro k hk i hi
    rw [hbefore i (by omega)]
    exact hjdue.2 i (by omega)
  refine ⟨fun k => ?_, fun k hk => ?_⟩
  · rcases Nat.lt_trichotomy k j with hk | rfl | hk
    · rw [hbefore k hk]
      have : (st k).isWaiting = false := by
        have := hjdue.2 k hk
        cases hx : st k <;> simp_all [NodeState.endsWith, NodeState.isWaiting]
      simp only [this, true_iff]
      exact ⟨by omega, hbeforeOk k (by omega)⟩
    · simp only [ended, if_true, NodeState.isWaiting, true_iff]
      exact ⟨hjdue.1, hbeforeOk k (Nat.le_refl k)⟩
    · have hkj : k ≠ j := by omega
      by_cases hnext : k = j + 1 ∧ o = .ok () ∧ j + 1 < region.ops.length
      · obtain ⟨rfl, rfl, hlt⟩ := hnext
        have hcalled : ended region st j (.ok ()) (j + 1) = .called := by simp [ended, hlt]
        simp only [hcalled, NodeState.isWaiting, true_iff]
        refine ⟨hlt, fun i hi => ?_⟩
        rcases Nat.lt_succ_iff_lt_or_eq.1 hi with hi | rfl
        · exact hbeforeOk j (Nat.le_refl j) i hi
        · simp [ended, NodeState.endsWith]
      · have hst : ended region st j o k = st k := by simp only [ended, hkj, hnext, if_false]
        rw [hst, h.isWaiting_of_lt hj hk]
        simp only [Bool.true_eq_false, false_iff, not_and]
        intro hlt hall
        have hjo := hall j hk
        simp only [ended, if_true, NodeState.endsWith, decide_eq_true_eq] at hjo
        subst hjo
        have hk2 : j + 1 < k := by
          rcases Nat.lt_or_ge (j + 1) k with h1 | h1
          · exact h1
          · exact absurd ⟨by omega, rfl, by omega⟩ hnext
        have := hall (j + 1) hk2
        simp [ended, NodeState.endsWith, show j + 1 < region.ops.length by omega] at this
  · simp only [ended] at hk ⊢
    split
    · simp [NodeState.isTaken]
    · split
      · simp [NodeState.isTaken]
      · simp_all [h.taken k]

end FollowsOrder

end Machine

end OpFlow
