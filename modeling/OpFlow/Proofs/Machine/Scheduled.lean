import OpFlow.Proofs.Machine.NodeState
import Mathlib.Algebra.BigOperators.Group.Finset.Basic

/-!
A run that goes by its graph. What is left of it on threads, in queues and in the log agrees with a
state for each node, its schedule agrees with these states, and its holders are the threads, tasks
and calls that still belong to it. Every way in which such a run can move keeps this, and it ends
once: when all nodes have completed, or when nobody holds it any more.
-/
namespace OpFlow.Machine

open Finset (range)

variable {α : Type}

/-- What threads, queues and the log hold of one run. -/
inductive Sign
  | start
  | started
  /-- A thread that holds the run. -/
  | hold
  /-- The run is about to be settled. -/
  | closing (outcome : Outcome)
  | resolved (outcome : Outcome)
  | node (node : Nat) (mark : Mark)
  deriving DecidableEq

/-- All that can be seen of one run. -/
structure RunView (α : Type) where
  /-- Whether its host has a runner. -/
  concurrent : Bool
  run : Option (Run α)
  regions : List (Program α)
  progress : Nat → Option Progress
  count : Sign → Nat

namespace RunView

structure Moves (V V' : RunView α) (out inn : List Sign) : Prop where
  concurrent : V'.concurrent = V.concurrent
  regions : V'.regions = V.regions
  count : ∀ x, V'.count x + out.count x = V.count x + inn.count x

theorem Moves.eq_of_not_mem {V V' : RunView α} {out inn : List Sign} (h : V.Moves V' out inn)
    {x : Sign} (hout : x ∉ out) (hinn : x ∉ inn) : V'.count x = V.count x := by
  have := h.count x
  rwa [List.count_eq_zero_of_not_mem hout, List.count_eq_zero_of_not_mem hinn] at this

/-- What is counted of a run that is resolved as it was about to be. -/
theorem Moves.resolved {V V' : RunView α} {o : Outcome} (h : V.Moves V' [.closing o] [.resolved o]) :
    (∀ x, x ≠ .closing o → x ≠ .resolved o → V'.count x = V.count x) ∧
      (∀ o', V'.count (.closing o') + V'.count (.resolved o') =
        V.count (.closing o') + V.count (.resolved o')) ∧ 0 < V'.count (.resolved o) := by
  refine ⟨fun x h1 h2 => h.eq_of_not_mem (by simpa using h1) (by simpa using h2), fun o' => ?_, ?_⟩
  · have h1 := h.count (.closing o')
    have h2 := h.count (.resolved o')
    by_cases ho : o = o'
    · subst ho
      simp at h1 h2
      omega
    · simp [ho] at h1 h2
      omega
  · have := h.count (.resolved o)
    simp at this
    omega

def marks (V : RunView α) (node : Nat) (mark : Mark) : Nat := V.count (.node node mark)

end RunView

/-- A node moves on to another state. -/
theorem NodeState.Shown.shift {x y : NodeState} {p p' : Option Progress} {m m' : Mark → Nat}
    {out inn : List Sign} {j : Nat} (h : x.Shown p m) (hp : p' = y.progress?)
    (hm : ∀ k, m' k + out.count (.node j k) = m k + inn.count (.node j k))
    (hdue : x.isDue.toNat + (inn.count (.node j .turn) + inn.count (.node j .queued)) =
      y.isDue.toNat + (out.count (.node j .turn) + out.count (.node j .queued)))
    (hfixed : ∀ k, k.isFixed →
      x.weight k + inn.count (.node j k) = y.weight k + out.count (.node j k)) :
    y.Shown p' m' := by
  refine ⟨hp, ?_, fun k hk => ?_⟩
  · have := hm .turn
    have := hm .queued
    have := h.due
    omega
  · have := hm k
    have := h.fixed k hk
    have := hfixed k hk
    omega

section Weight

/-! What moves with a node that is called and runs. -/

variable (j : Nat) {k : Mark} (hk : k.isFixed)

include hk

theorem NodeState.weight_of_called : due.weight k + [Sign.node j .call].count (.node j k) =
    called.weight k + [Sign.node j .turn].count (.node j k) := by
  cases k <;> simp_all [Mark.isFixed]

theorem NodeState.weight_of_skipped : due.weight k + [Sign.node j .skipped].count (.node j k) =
    skipped.weight k + [Sign.node j .turn].count (.node j k) := by
  cases k <;> simp_all [Mark.isFixed]

theorem NodeState.weight_of_launched :
    called.weight k + [Sign.node j .launched, .node j .returned].count (.node j k) =
      (running .entered).weight k + [Sign.node j .call].count (.node j k) := by
  cases k <;> simp_all [Mark.isFixed]

theorem NodeState.weight_of_awaited :
    (running .entered).weight k + ([] : List Sign).count (.node j k) =
      (running .awaited).weight k + [Sign.node j .returned].count (.node j k) := by
  cases k <;> simp_all [Mark.isFixed]

theorem NodeState.weight_of_dropped : [Sign.hold, .node j .dropped].count (.node j k) =
    dropped.weight k + [Sign.node j .turn].count (.node j k) := by
  cases k <;> simp_all [Mark.isFixed]

theorem count_turn_of_isFixed : [Sign.node j .turn].count (.node j k) = 0 := by
  cases k <;> simp_all [Mark.isFixed]

theorem count_queued_of_isFixed : [Sign.node j .queued].count (.node j k) = 0 := by
  cases k <;> simp_all [Mark.isFixed]

omit hk

theorem NodeState.weight_of_settled (k : Mark) (o : Outcome) :
    (running (.settled o)).weight k = (running .entered).weight k := by
  cases k <;> rfl

end Weight

theorem sum_range_update {n j : Nat} (hj : j < n) {f g : Nat → Nat}
    (h : ∀ k, k ≠ j → g k = f k) :
    ∑ k ∈ range n, g k + f j = ∑ k ∈ range n, f k + g j := by
  have hmem : j ∈ range n := Finset.mem_range.2 hj
  have hrest : ∑ k ∈ (range n).erase j, g k = ∑ k ∈ (range n).erase j, f k :=
    Finset.sum_congr rfl fun k hk => h k (Finset.ne_of_mem_erase hk)
  rw [← Finset.sum_erase_add _ _ hmem, ← Finset.sum_erase_add (range n) f hmem, hrest]
  omega

/-- A schedule records what its nodes have come to. -/
structure Records (region : Program α) (st : Nat → NodeState) (s : Schedule) : Prop where
  verify : s.verify = region.verify
  skipped : s.skipped = (List.range region.ops.length).countP fun j => (st j).isSkipped
  noError : s.firstError = none → ∀ j e, st j ≠ .ended (.error e)
  first : ∀ i e', s.firstError = some (i, e') →
    (∃ e, st i = .ended (.error e) ∧ e' = e.attributedTo (infoAt region i)) ∧
      ∀ j e, st j = .ended (.error e) → i ≤ j
  running : s.verify = true → ∀ j, j ∈ s.running ↔ (st j).isOut

namespace Records

variable {region : Program α} {st : Nat → NodeState} {s : Schedule} {j : Nat}

theorem congr {t : Schedule} (h : Records region st s) (hverify : t.verify = s.verify)
    (hskipped : t.skipped = s.skipped) (hfirst : t.firstError = s.firstError)
    (hrunning : t.running = s.running) : Records region st t := by
  refine ⟨hverify.trans h.verify, hskipped.trans h.skipped, ?_, ?_, ?_⟩
  · exact fun hn => h.noError (hfirst ▸ hn)
  · exact fun i e' hf => h.first i e' (hfirst ▸ hf)
  · exact fun hv j => hrunning ▸ h.running (hverify ▸ hv) j

theorem of_states {st' : Nat → NodeState} (h : Records region st s)
    (hs : ∀ k, (st' k).isSkipped = (st k).isSkipped)
    (he : ∀ k e, st' k = .ended (.error e) ↔ st k = .ended (.error e))
    (ho : ∀ k, (st' k).isOut = (st k).isOut) : Records region st' s := by
  refine ⟨h.verify, by simp only [hs]; exact h.skipped, ?_, ?_, ?_⟩
  · exact fun hn k e hk => h.noError hn k e ((he k e).1 hk)
  · intro i e' hf
    obtain ⟨⟨e, hi, rfl⟩, hmin⟩ := h.first i e' hf
    exact ⟨⟨e, (he i e).2 hi, rfl⟩, fun k e hk => hmin k e ((he k e).1 hk)⟩
  · exact fun hv k => (ho k).symm ▸ h.running hv k

theorem start [Leaf α] (region : Program α) (st : Nat → NodeState)
    (hst : ∀ j, st j = .due ∨ st j = .waiting) :
    Records region st (.start region.graph region.verify) := by
  refine ⟨rfl, ?_, ?_, by simp [Schedule.start], ?_⟩
  · have hnone : ∀ j ∈ List.range region.ops.length, ¬ (st j).isSkipped = true := fun j _ => by
      rcases hst j with h | h <;> simp [h, NodeState.isSkipped]
    exact (List.countP_eq_zero.2 hnone).symm
  · intro _ j e
    rcases hst j with h | h <;> simp [h]
  · intro _ j
    rcases hst j with h | h <;> simp [h, NodeState.isOut, Schedule.start]

theorem enter (h : Records region st s) (hj : st j = .due) :
    Records region (Function.update st j .called) (s.enter j) := by
  have hskip : ∀ k, (Function.update st j .called k).isSkipped = (st k).isSkipped := fun k => by
    by_cases hk : k = j
    · subst hk; simp [hj, NodeState.isSkipped]
    · simp [hk]
  have hend : ∀ k e, Function.update st j .called k = .ended (.error e) ↔
      st k = .ended (.error e) := fun k e => by
    by_cases hk : k = j
    · subst hk; simp [hj]
    · simp [hk]
  have hfields : (s.enter j).verify = s.verify ∧ (s.enter j).skipped = s.skipped ∧
      (s.enter j).firstError = s.firstError := by
    unfold Schedule.enter
    split <;> simp
  refine ⟨hfields.1.trans h.verify, by simp only [hskip, hfields]; exact h.skipped, ?_, ?_, ?_⟩
  · exact fun hn k e hk => h.noError (hfields.2.2 ▸ hn) k e ((hend k e).1 hk)
  · intro i e' hf
    obtain ⟨⟨e, hi, rfl⟩, hmin⟩ := h.first i e' (hfields.2.2 ▸ hf)
    exact ⟨⟨e, (hend i e).2 hi, rfl⟩, fun k e hk => hmin k e ((hend k e).1 hk)⟩
  · intro hv k
    rw [hfields.1] at hv
    have hrun := h.running hv k
    simp only [Schedule.enter, hv, if_true, List.mem_append, List.mem_singleton, hrun]
    by_cases hk : k = j
    · subst hk; simp [NodeState.isOut]
    · simp [hk]

def errorAfter (region : Program α) (s : Schedule) (j : Nat) : NodeState → Option (Nat × Error)
  | .ended (.error e) => (s.recordError j (e.attributedTo (infoAt region j))).firstError
  | _ => s.firstError

theorem errorAfter_of_not_error {x : NodeState} (hx : ∀ e, x ≠ .ended (.error e)) :
    errorAfter region s j x = s.firstError := by
  cases x with
  | ended o =>
    cases o with
    | error e => exact absurd rfl (hx e)
    | ok => rfl
  | _ => rfl

variable {x : NodeState} {ready : List Nat}

theorem completed_or (hready : ∀ k ∈ ready, (st k).isWaiting) {k : Nat} (hk : k ≠ j) :
    FollowsGraph.completed st j x ready k = st k ∨
      FollowsGraph.completed st j x ready k = .due ∧ st k = .waiting := by
  by_cases hr : k ∈ ready
  · right
    have := hready k hr
    refine ⟨by simp [FollowsGraph.completed, hk, hr], ?_⟩
    cases hx : st k <;> simp_all [NodeState.isWaiting]
  · simp [FollowsGraph.completed, hk, hr]

@[simp] theorem completed_self : FollowsGraph.completed st j x ready j = x := by
  simp [FollowsGraph.completed]

theorem firstError_complete (h : Records region st s) (hj : (st j).isStill = false)
    (hready : ∀ k ∈ ready, (st k).isWaiting) :
    (errorAfter region s j x = none →
        ∀ k e, FollowsGraph.completed st j x ready k ≠ .ended (.error e)) ∧
      ∀ i e', errorAfter region s j x = some (i, e') →
        (∃ e, FollowsGraph.completed st j x ready i = .ended (.error e) ∧
            e' = e.attributedTo (infoAt region i)) ∧
          ∀ k e, FollowsGraph.completed st j x ready k = .ended (.error e) → i ≤ k := by
  have hold : ∀ k e, k ≠ j → (FollowsGraph.completed st j x ready k = .ended (.error e) ↔
      st k = .ended (.error e)) := fun k e hk => by
    rcases completed_or (x := x) hready hk with h1 | ⟨h1, h2⟩ <;> simp [h1]
    simp [h2]
  have hjne : ∀ i e, st i = .ended (.error e) → i ≠ j := fun i e hi hij => by
    simp_all [NodeState.isStill]
  by_cases hx : ∃ e, x = .ended (.error e)
  · obtain ⟨e, rfl⟩ := hx
    simp only [errorAfter, Schedule.recordError]
    cases hs : s.firstError with
    | none =>
      refine ⟨by simp, ?_⟩
      rintro i e' hi
      obtain ⟨rfl, rfl⟩ : j = i ∧ _ = e' := by simpa using hi
      refine ⟨⟨e, completed_self, rfl⟩, fun k e' hk => ?_⟩
      by_cases hkj : k = j
      · exact Nat.le_of_eq hkj.symm
      · exact absurd ((hold k e' hkj).1 hk) (h.noError hs k e')
    | some p =>
      obtain ⟨first, kept⟩ := p
      obtain ⟨⟨e₁, hfirst, rfl⟩, hmin⟩ := h.first first kept hs
      have hne := hjne first e₁ hfirst
      by_cases hlt : j < first
      · simp only [hlt, if_true]
        refine ⟨by simp, ?_⟩
        rintro i e' hi
        obtain ⟨rfl, rfl⟩ : j = i ∧ _ = e' := by simpa using hi
        refine ⟨⟨e, completed_self, rfl⟩, fun k e' hk => ?_⟩
        by_cases hkj : k = j
        · exact Nat.le_of_eq hkj.symm
        · exact hlt.le.trans (hmin k e' ((hold k e' hkj).1 hk))
      · simp only [hlt, if_false]
        refine ⟨by simp [hs], ?_⟩
        rintro i e' hi
        obtain ⟨rfl, rfl⟩ : first = i ∧ _ = e' := by simpa [hs] using hi
        refine ⟨⟨e₁, (hold first e₁ hne).2 hfirst, rfl⟩, fun k e' hk => ?_⟩
        by_cases hkj : k = j
        · omega
        · exact hmin k e' ((hold k e' hkj).1 hk)
  · have hx' : ∀ e, x ≠ .ended (.error e) := fun e he => hx ⟨e, he⟩
    rw [errorAfter_of_not_error hx']
    refine ⟨fun hn k e hk => ?_, fun i e' hi => ?_⟩
    · by_cases hkj : k = j
      · subst hkj
        exact hx' e (by simpa using hk)
      · exact h.noError hn k e ((hold k e hkj).1 hk)
    · obtain ⟨⟨e, hst, rfl⟩, hmin⟩ := h.first i e' hi
      refine ⟨⟨e, (hold i e (hjne i e hst)).2 hst, rfl⟩, fun k e' hk => ?_⟩
      by_cases hkj : k = j
      · subst hkj
        exact absurd (by simpa using hk) (hx' e')
      · exact hmin k e' ((hold k e' hkj).1 hk)

/-- Node `j` comes to an end `x`. -/
theorem complete (h : Records region st s) (hlt : j < region.ops.length)
    (hj : (st j).isStill = false) (hx : x.isDone) (hready : ∀ k ∈ ready, (st k).isWaiting)
    {t : Schedule} (hverify : t.verify = s.verify)
    (hskipped : t.skipped = s.skipped + x.isSkipped.toNat)
    (hfirst : t.firstError = errorAfter region s j x)
    (hrunning : s.verify = true → ∀ k, k ∈ t.running ↔ k ∈ s.running ∧ k ≠ j) :
    Records region (FollowsGraph.completed st j x ready) t := by
  obtain ⟨herr, hmin⟩ := h.firstError_complete (x := x) hj hready
  refine ⟨hverify.trans h.verify, ?_, fun hn => herr (hfirst ▸ hn),
    fun i e' hi => hmin i e' (hfirst ▸ hi), ?_⟩
  · have hjs : (st j).isSkipped = false := by
      cases hs : st j <;> simp_all [NodeState.isStill, NodeState.isSkipped]
    have hsame : ∀ k, k ≠ j →
        (FollowsGraph.completed st j x ready k).isSkipped = (st k).isSkipped := fun k hk => by
      rcases completed_or (x := x) hready hk with h1 | ⟨h1, h2⟩
      · rw [h1]
      · simp [h1, h2, NodeState.isSkipped]
    rw [hskipped, h.skipped]
    cases hxs : x.isSkipped with
    | false =>
      apply List.countP_congr
      intro k _
      by_cases hk : k = j
      · subst hk; simp [hjs, hxs]
      · simp [hsame k hk]
    | true =>
      have hnew := Schedule.countP_not_mark (List.nodup_range (n := region.ops.length))
        (fun k => !(FollowsGraph.completed st j x ready k).isSkipped) j (by simp [hxs])
      simp only [List.mem_range, hlt, if_true, Bool.not_not] at hnew
      rw [← hnew]
      congr 1
      apply List.countP_congr
      intro k _
      by_cases hk : k = j
      · subst hk; simp [Schedule.mark, hjs]
      · simp [Schedule.mark, hk, hsame k hk]
  · intro hv k
    rw [hverify] at hv
    rw [hrunning hv k, h.running hv k]
    by_cases hk : k = j
    · subst hk
      cases x <;> simp_all [NodeState.isDone, NodeState.isOut]
    · rcases completed_or (x := x) hready hk with h1 | ⟨h1, h2⟩
      · simp [h1, hk]
      · simp [h1, h2, NodeState.isOut]

end Records

variable [Leaf α]

namespace RunView

/-- What holds a run: threads, queued tasks, and calls that are awaited. -/
def held (V : RunView α) (region : Program α) (st : Nat → NodeState) : Nat :=
  V.count .hold + ∑ k ∈ range region.ops.length,
    (V.count (.node k .queued) + (st k).isAwaited.toNat)

/-- A run that goes by its graph, with the states of its nodes, its schedule and its holders. When
it has been decided how it ends, this is `fin`. -/
structure Scheduled (V : RunView α) (region : Program α) (st : Nat → NodeState) (s : Schedule)
    (holders : Nat) (fin : Option Outcome) : Prop where
  regions : V.regions = [region]
  concurrent : V.concurrent = true
  unordered : region.graph.isSequential = false
  start : V.count .start = 0
  started : V.count .started = 1
  live : (∀ o, V.count (.resolved o) = 0) → V.run = some ⟨region, .scheduled s holders⟩
  dead : ∀ o, 0 < V.count (.resolved o) → V.run = none
  shown : ∀ j, (st j).Shown (V.progress j) (V.marks j)
  follows : FollowsGraph region st
  tracks : s.Tracks region.footprints region.reduction (fun j => (st j).isDone)
    fun j => (st j).isBad
  records : Records region st s
  held : fin = none ∨ s.isComplete → V.run.isSome → holders = V.held region st
  closing : ∀ o, V.count (.closing o) + V.count (.resolved o) = if fin = some o then 1 else 0
  unfinished : fin = none → s.isComplete = false
  still : ∀ o, fin = some o → ∀ j, (st j).isStill
  outcome : ∀ o, fin = some o → o = if s.isComplete then s.outcome else .error .promiseDropped
  abandoned : ∀ o, fin = some o → s.isComplete = false → V.count .hold = 0

namespace Scheduled

variable {V V' : RunView α} {region : Program α} {st : Nat → NodeState} {s : Schedule}
  {holders : Nat} {fin : Option Outcome} {out inn : List Sign} {j : Nat} {x : NodeState}

theorem fin_eq_none (h : V.Scheduled region st s holders fin) (hj : (st j).isStill = false) :
    fin = none := by
  cases fin with
  | none => rfl
  | some o => simp [h.still o rfl j] at hj

theorem fin_eq_some {o : Outcome} (h : V.Scheduled region st s holders fin)
    (ho : 0 < V.count (.closing o) + V.count (.resolved o)) : fin = some o := by
  by_contra hne
  rw [h.closing o, if_neg hne] at ho
  cases ho

theorem resolved_eq_zero (h : V.Scheduled region st s holders none) (o : Outcome) :
    V.count (.resolved o) = 0 := by
  have := h.closing o
  simp only [reduceCtorEq, if_false] at this
  omega

theorem closing_eq_zero (h : V.Scheduled region st s holders none) (o : Outcome) :
    V.count (.closing o) = 0 := by
  have := h.closing o
  simp only [reduceCtorEq, if_false] at this
  omega

theorem run_eq (h : V.Scheduled region st s holders none) :
    V.run = some ⟨region, .scheduled s holders⟩ := h.live h.resolved_eq_zero

theorem eq_of_run_eq (h : V.Scheduled region st s holders fin) {x : Run α} (hx : V.run = some x) :
    x = ⟨region, .scheduled s holders⟩ ∧ ∀ o, V.count (.resolved o) = 0 := by
  have hnone : ∀ o, V.count (.resolved o) = 0 := fun o => by
    by_contra hne
    rw [h.dead o (by omega)] at hx
    cases hx
  exact ⟨Option.some.inj (hx.symm.trans (h.live hnone)), hnone⟩

theorem lt_length (h : V.Scheduled region st s holders fin) (hj : (st j).isStill = false) :
    j < region.ops.length :=
  h.follows.lt_length (NodeState.isWaiting_eq_false_of_isStill hj)

/-- A node moves on without completing. -/
theorem update (h : V.Scheduled region st s holders none) (hm : V.Moves V' out inn)
    (hlocal : ∀ y ∈ out ++ inn, y = .hold ∨ ∃ m, y = .node j m)
    (hprogress : ∀ k, k ≠ j → V'.progress k = V.progress k)
    (hj : (st j).isStill = false) (hx : x.isWaiting = false) (hd : x.isDone = false)
    (ht : x.isTaken → ∀ i ∈ region.graph.predsOf j, (st i).isBad = false)
    (hshown : x.Shown (V'.progress j) (V'.marks j)) {t : Schedule} {holders' : Nat}
    (htracks : t.Tracks region.footprints region.reduction (fun j => (st j).isDone)
      fun j => (st j).isBad)
    (hrecords : Records region (Function.update st j x) t)
    (hrun : V'.run = some ⟨region, .scheduled t holders'⟩)
    (hheld : holders' + (V.count .hold + V.marks j .queued + (st j).isAwaited.toNat) =
      holders + (V'.count .hold + V'.marks j .queued + x.isAwaited.toNat)) :
    V'.Scheduled region (Function.update st j x) t holders' none := by
  have hsame : ∀ y, y ≠ .hold → (∀ m, y ≠ .node j m) → V'.count y = V.count y := fun y h1 h2 =>
    hm.eq_of_not_mem
      (fun hy => (hlocal y (List.mem_append_left _ hy)).elim h1 fun ⟨m, hy⟩ => h2 m hy)
      (fun hy => (hlocal y (List.mem_append_right _ hy)).elim h1 fun ⟨m, hy⟩ => h2 m hy)
  have hmarks : ∀ k, k ≠ j → ∀ m, V'.marks k m = V.marks k m := fun k hk m =>
    hsame _ (by simp) fun m' => by simp [hk]
  have hdone : (fun k => (Function.update st j x k).isDone) = fun k => (st k).isDone :=
    funext (FollowsGraph.isDone_update hj hd)
  have hbad : (fun k => (Function.update st j x k).isBad) = fun k => (st k).isBad :=
    funext (FollowsGraph.isBad_update hj hd)
  have hresolved : ∀ o, V'.count (.resolved o) = 0 := fun o => by
    rw [hsame _ (by simp) (by simp), h.resolved_eq_zero]
  refine ⟨hm.regions.trans h.regions, hm.concurrent.trans h.concurrent, h.unordered,
    (hsame _ (by simp) (by simp)).trans h.start, (hsame _ (by simp) (by simp)).trans h.started,
    fun _ => hrun, fun o ho => by simp [hresolved] at ho, fun k => ?_,
    h.follows.update hj hx hd ht, by rw [hdone, hbad]; exact htracks, hrecords, fun _ _ => ?_,
    fun o => ?_, fun _ => ?_, by simp, by simp, by simp⟩
  · by_cases hk : k = j
    · subst hk
      simpa using hshown
    · rw [Function.update_of_ne hk]
      exact (h.shown k).congr (hprogress k hk) (hmarks k hk)
  · have hold := h.held (.inl rfl) (by simp [h.run_eq])
    have hsum := sum_range_update (h.lt_length hj)
      (f := fun k => V.count (.node k .queued) + (st k).isAwaited.toNat)
      (g := fun k => V'.count (.node k .queued) + (Function.update st j x k).isAwaited.toNat)
      fun k hk => by
        have := hmarks k hk .queued
        simp only [marks] at this
        simp [hk, this]
    simp only [RunView.held, marks, Function.update_self] at *
    omega
  · have := h.closing o
    rw [hsame _ (by simp) (by simp), hresolved]
    simp only [reduceCtorEq, if_false] at this ⊢
    omega
  · have hopen := h.unfinished rfl
    have hiff := htracks.isComplete_iff
    rw [← h.tracks.isComplete_iff, hopen] at hiff
    simpa using hiff

def completion (s : Schedule) (ready : List Nat) : List Sign :=
  ready.map (fun k => .node k .turn) ++ if s.isComplete then [.closing s.outcome] else []

theorem count_turn_completion (s : Schedule) {ready : List Nat} (hready : ready.Nodup) (k : Nat) :
    (completion s ready).count (.node k .turn) = if k ∈ ready then 1 else 0 := by
  have hmap : (ready.map fun k => Sign.node k .turn).count (.node k .turn) = ready.count k :=
    List.count_map_of_injective ready (fun k => Sign.node k .turn)
      (fun a b hab => by simpa using hab) k
  have hover : (if s.isComplete then [Sign.closing s.outcome] else []).count (.node k .turn) = 0 := by
    split <;> simp
  rw [completion, List.count_append, hmap, hover, hready.count]
  rfl

theorem count_closing_completion (s : Schedule) (ready : List Nat) (o : Outcome) :
    (completion s ready).count (.closing o) = if s.isComplete ∧ s.outcome = o then 1 else 0 := by
  have hmap : (ready.map fun k => Sign.node k .turn).count (.closing o) = 0 :=
    List.count_eq_zero_of_not_mem (by simp)
  rw [completion, List.count_append, hmap]
  split <;> simp_all [List.count_cons]

theorem not_mem_completion (s : Schedule) (ready : List Nat) {y : Sign}
    (hturn : ∀ k, y ≠ .node k .turn) (hover : ∀ o, y ≠ .closing o) : y ∉ completion s ready := by
  simp only [completion, List.mem_append, List.mem_map, not_or, not_exists, not_and]
  refine ⟨fun k _ hk => hturn k hk.symm, ?_⟩
  split <;> simp [hover]

section Completion

/-! A node completes: besides its own marks and holds, only turns and the end come of it. -/

variable {u : Schedule} {ready : List Nat}
  (hm : V.Moves V' out (inn ++ completion u ready))
  (hlocal : ∀ y ∈ out ++ inn, y = .hold ∨ ∃ m, y = .node j m)

omit [Leaf α]

include hm

theorem hold_completing :
    V'.count .hold + out.count .hold = V.count .hold + inn.count .hold := by
  have := hm.count .hold
  rwa [List.count_append,
    List.count_eq_zero_of_not_mem (not_mem_completion u ready (by simp) (by simp)),
    Nat.add_zero] at this

theorem marks_completing_self (hnodup : ready.Nodup) (hnot : j ∉ ready) (m : Mark) :
    V'.marks j m + out.count (.node j m) = V.marks j m + inn.count (.node j m) := by
  have hnone : (completion u ready).count (.node j m) = 0 := by
    by_cases hmt : m = .turn
    · rw [hmt, count_turn_completion u hnodup, if_neg hnot]
    · exact List.count_eq_zero_of_not_mem (not_mem_completion u ready (by simp [hmt]) (by simp))
  have := hm.count (.node j m)
  rwa [List.count_append, hnone, Nat.add_zero] at this

include hlocal

theorem count_completing {y : Sign} (hhold : y ≠ .hold) (hnode : ∀ m, y ≠ .node j m) :
    V'.count y = V.count y + (completion u ready).count y := by
  have hnot : y ∉ out ++ inn := fun hy => (hlocal y hy).elim hhold fun ⟨m, hy⟩ => hnode m hy
  rw [List.mem_append, not_or] at hnot
  have := hm.count y
  rwa [List.count_append, List.count_eq_zero_of_not_mem hnot.1,
    List.count_eq_zero_of_not_mem hnot.2, Nat.add_zero, Nat.zero_add] at this

theorem count_completing_of_ne {y : Sign} (hhold : y ≠ .hold) (hnode : ∀ m, y ≠ .node j m)
    (hturn : ∀ k, y ≠ .node k .turn) (hclosing : ∀ o, y ≠ .closing o) :
    V'.count y = V.count y := by
  rw [count_completing hm hlocal hhold hnode,
    List.count_eq_zero_of_not_mem (not_mem_completion u ready hturn hclosing), Nat.add_zero]

theorem closing_completing (hclosing : ∀ o, V.count (.closing o) = 0) (o : Outcome) :
    V'.count (.closing o) = if u.isComplete ∧ u.outcome = o then 1 else 0 := by
  have := count_completing hm hlocal (y := .closing o) (by simp) (by simp)
  rwa [count_closing_completion, hclosing, Nat.zero_add] at this

theorem marks_completing {k : Nat} (hk : k ≠ j) {m : Mark} (hturn : m ≠ .turn) :
    V'.marks k m = V.marks k m :=
  count_completing_of_ne hm hlocal (by simp) (fun _ => by simp [hk]) (fun _ => by simp [hturn])
    (by simp)

theorem turn_completing (hnodup : ready.Nodup) {k : Nat} (hk : k ≠ j) :
    V'.marks k .turn = V.marks k .turn + if k ∈ ready then 1 else 0 := by
  have := count_completing hm hlocal (y := .node k .turn) (by simp) fun _ => by simp [hk]
  rwa [count_turn_completion u hnodup] at this

theorem shown_completing (hnodup : ready.Nodup) (hwait : ∀ k ∈ ready, (st k).isWaiting) {k : Nat}
    (hk : k ≠ j) (hold : (st k).Shown (V.progress k) (V.marks k))
    (hprogress : V'.progress k = V.progress k) :
    (FollowsGraph.completed st j x ready k).Shown (V'.progress k) (V'.marks k) := by
  have hturn := turn_completing hm hlocal hnodup hk
  by_cases hkr : k ∈ ready
  · have hkw : st k = .waiting := by
      have := hwait k hkr
      cases hx : st k <;> simp_all [NodeState.isWaiting]
    rw [hkw] at hold
    rw [if_pos hkr] at hturn
    simp only [FollowsGraph.completed, hk, hkr, if_true, if_false]
    refine ⟨hprogress.trans hold.progress, ?_, fun m hfix => ?_⟩
    · have := hold.due
      have := marks_completing hm hlocal hk (m := .queued) (by simp)
      simp only [NodeState.isDue, Bool.toNat_true, Bool.toNat_false] at *
      omega
    · have hmt : m ≠ .turn := fun hmt => by simp [hmt, Mark.isFixed] at hfix
      rw [marks_completing hm hlocal hk hmt, hold.fixed m hfix]
      simp
  · simp only [FollowsGraph.completed, hk, hkr, if_false]
    refine hold.congr hprogress fun m => ?_
    by_cases hmt : m = .turn
    · subst hmt
      simpa [hkr] using hturn
    · exact marks_completing hm hlocal hk hmt

theorem held_completing (hlt : j < region.ops.length) (hnodup : ready.Nodup) (hnot : j ∉ ready)
    (hwait : ∀ k ∈ ready, (st k).isWaiting) (hx : x.isDone)
    (hheld : inn.count .hold + inn.count (.node j .queued) =
      out.count .hold + out.count (.node j .queued) + (st j).isAwaited.toNat) :
    V'.held region (FollowsGraph.completed st j x ready) = V.held region st := by
  have hsum := sum_range_update hlt
    (f := fun k => V.count (.node k .queued) + (st k).isAwaited.toNat)
    (g := fun k => V'.count (.node k .queued) +
      (FollowsGraph.completed st j x ready k).isAwaited.toNat)
    fun k hk => by
      have hq := marks_completing hm hlocal hk (m := .queued) (by simp)
      simp only [marks] at hq
      rcases Records.completed_or (x := x) hwait hk with h1 | ⟨h1, h2⟩
      · simp [h1, hq]
      · simp [h1, h2, hq, NodeState.isAwaited]
  have hxa : x.isAwaited = false := by
    cases x <;> simp_all [NodeState.isDone, NodeState.isAwaited]
  have hxj : FollowsGraph.completed st j x ready j = x := Records.completed_self
  have hqueued := marks_completing_self hm hnodup hnot .queued
  have hhold := hold_completing hm
  simp only [RunView.held, marks, hxj, hxa, Bool.toNat_false] at *
  omega

end Completion

theorem isStill_of_isComplete (hfollows : FollowsGraph region st)
    (htracks : s.Tracks region.footprints region.reduction (fun j => (st j).isDone)
      fun j => (st j).isBad) (hc : s.isComplete) (k : Nat) : (st k).isStill := by
  by_cases hk : k < region.ops.length
  · exact NodeState.isStill_of_isDone
      (htracks.isComplete_iff.1 hc k (by rwa [Region.length_footprints]))
  · have hw : (st k).isWaiting := by
      by_contra hw
      exact hk (hfollows.lt_length (by simpa using hw))
    cases hst : st k <;> simp_all [NodeState.isWaiting, NodeState.isStill]

section Ready

variable {t : Schedule} (hfollows : FollowsGraph region st)
  (htracks : t.Tracks region.footprints region.reduction (fun k => (st k).isDone)
    fun k => (st k).isBad)
  (hj : (st j).isStill = false)

include hfollows htracks hj

theorem ready_complete : FollowsGraph.IsReady region st j (t.complete j x.isBad).2 ∧
    (t.complete j x.isBad).2.Nodup ∧ (∀ k ∈ (t.complete j x.isBad).2, (st k).isWaiting) ∧
      j ∉ (t.complete j x.isBad).2 := by
  have hready : FollowsGraph.IsReady region st j (t.complete j x.isBad).2 := fun k => by
    rw [htracks.mem_ready_iff (NodeState.isDone_eq_false_of_isStill hj), htracks.graph]
    rfl
  have hwait : ∀ k ∈ (t.complete j x.isBad).2, (st k).isWaiting :=
    fun k hk => hfollows.isWaiting_of_isReady hj hready hk
  refine ⟨hready, htracks.nodup_ready j x.isBad, hwait, fun hmem => ?_⟩
  have := hwait j hmem
  rw [NodeState.isWaiting_eq_false_of_isStill hj] at this
  cases this

theorem tracks_complete (hx : x.isDone) :
    (t.complete j x.isBad).1.Tracks region.footprints region.reduction
      (fun k => (FollowsGraph.completed st j x (t.complete j x.isBad).2 k).isDone)
      fun k => (FollowsGraph.completed st j x (t.complete j x.isBad).2 k).isBad := by
  obtain ⟨hready, -⟩ := ready_complete (x := x) hfollows htracks hj
  have hlt : j < region.footprints.length := by
    rw [Region.length_footprints]
    exact hfollows.lt_length (NodeState.isWaiting_eq_false_of_isStill hj)
  rw [funext (hfollows.isDone_completed hj hx hready), funext (hfollows.isBad_completed hj hready)]
  exact htracks.complete hlt (NodeState.isDone_eq_false_of_isStill hj)
    (NodeState.isBad_eq_false_of_isStill hj) x.isBad

end Ready

/-- A node completes, and its schedule goes on with the nodes that have become ready. -/
theorem complete (h : V.Scheduled region st s holders none) (hj : (st j).isStill = false)
    (hx : x.isDone) (hs : x.isSkipped → ∃ i ∈ region.graph.predsOf j, (st i).isBad)
    (ht : x.isTaken → ∀ i ∈ region.graph.predsOf j, (st i).isBad = false)
    {t : Schedule} (hgraph : t.graph = s.graph) (hpending : t.pending = s.pending)
    (hpoisoned : t.poisoned = s.poisoned) (hremaining : t.remaining = s.remaining)
    (hverify : t.verify = s.verify) (hskipped : t.skipped = s.skipped + x.isSkipped.toNat)
    (hfirst : t.firstError = Records.errorAfter region s j x)
    (hrunning : s.verify = true → ∀ k, k ∈ t.running ↔ k ∈ s.running ∧ k ≠ j)
    (hm : V.Moves V' out
      (inn ++ completion (t.complete j x.isBad).1 (t.complete j x.isBad).2))
    (hlocal : ∀ y ∈ out ++ inn, y = .hold ∨ ∃ m, y = .node j m)
    (hprogress : ∀ k, k ≠ j → V'.progress k = V.progress k)
    (hshown : ∀ m : Mark → Nat,
      (∀ k, m k + out.count (.node j k) = V.marks j k + inn.count (.node j k)) →
        x.Shown (V'.progress j) m)
    (hrun : V'.run = some ⟨region, .scheduled (t.complete j x.isBad).1 holders⟩)
    (hheld : inn.count .hold + inn.count (.node j .queued) =
      out.count .hold + out.count (.node j .queued) + (st j).isAwaited.toNat) :
    V'.Scheduled region (FollowsGraph.completed st j x (t.complete j x.isBad).2)
      (t.complete j x.isBad).1 holders
      (if (t.complete j x.isBad).1.isComplete then some (t.complete j x.isBad).1.outcome
        else none) := by
  have hlt := h.lt_length hj
  have htr := h.tracks.congr hgraph hpending hpoisoned hremaining
  obtain ⟨hready, hnodup, hwait, hnot⟩ := ready_complete (x := x) h.follows htr hj
  have htracks := tracks_complete h.follows htr hj hx
  have hsameButNodes : t.SameButNodes (t.releaseAll x.isBad (t.graph.succsOf j)).1 :=
    Schedule.sameButNodes_releaseAll ..
  have hrecords : Records region (FollowsGraph.completed st j x (t.complete j x.isBad).2)
      (t.complete j x.isBad).1 :=
    (h.records.complete hlt hj hx hwait hverify hskipped hfirst hrunning).congr
      hsameButNodes.verify hsameButNodes.skipped hsameButNodes.firstError hsameButNodes.running
  have hfollows := h.follows.complete hj hx hready hs ht
  generalize (t.complete j x.isBad).2 = ready at *
  generalize (t.complete j x.isBad).1 = u at *
  have hsame : ∀ y, y ≠ .hold → (∀ m, y ≠ .node j m) → (∀ k, y ≠ .node k .turn) →
      (∀ o, y ≠ .closing o) → V'.count y = V.count y :=
    fun y => count_completing_of_ne hm hlocal
  have hresolved : ∀ o, V'.count (.resolved o) = 0 := fun o => by
    rw [hsame _ (by simp) (by simp) (by simp) (by simp), h.resolved_eq_zero]
  have hclosing := closing_completing hm hlocal h.closing_eq_zero
  -- the end is decided exactly if that was the last node
  generalize hfin : (if u.isComplete then some u.outcome else none) = fin
  have hdecided : ∀ o, fin = some o ↔ u.isComplete ∧ u.outcome = o := fun o => by
    subst hfin
    by_cases hc : u.isComplete <;> simp [hc]
  refine ⟨hm.regions.trans h.regions, hm.concurrent.trans h.concurrent, h.unordered,
    (hsame _ (by simp) (by simp) (by simp) (by simp)).trans h.start,
    (hsame _ (by simp) (by simp) (by simp) (by simp)).trans h.started,
    fun _ => hrun, fun o ho => by simp [hresolved] at ho, fun k => ?_, hfollows, htracks, hrecords,
    fun _ _ => ?_, fun o => ?_, fun hnone => ?_,
    fun o ho => isStill_of_isComplete hfollows htracks ((hdecided o).1 ho).1, fun o ho => ?_,
    fun o ho hinc => ?_⟩
  · by_cases hk : k = j
    · subst hk
      simpa [FollowsGraph.completed] using hshown _ (marks_completing_self hm hnodup hnot)
    · exact shown_completing hm hlocal hnodup hwait hk (h.shown k) (hprogress k hk)
  · rw [held_completing hm hlocal hlt hnodup hnot hwait hx hheld]
    exact h.held (.inl rfl) (by simp [h.run_eq])
  · simp only [hclosing, hresolved, hdecided, Nat.add_zero]
  · by_contra hc
    cases hnone.symm.trans ((hdecided u.outcome).2 ⟨by simpa using hc, rfl⟩)
  · obtain ⟨hc, rfl⟩ := (hdecided o).1 ho
    rw [if_pos hc]
  · exact absurd ((hdecided o).1 ho).1 (by simp [hinc])

end Scheduled

end RunView

end OpFlow.Machine
