import Mathlib.Data.Nat.Find
import OpFlow.Proofs.Machine.Progress

/-!
Failures are contained exactly. When a run that goes by its graph has come to its end, its operations
that were called are those that no failure reaches, all others were skipped, and the run ends with
the earliest failure. So the operations' own outcomes decide which of them are called, skipped and
fail and how the run ends, whatever the order of tasks and events and however the graph was reduced.
-/
namespace OpFlow.Machine

variable {α σ ι : Type} [Leaf α]

namespace FollowsGraph

variable {region : Program α} {st : Nat → NodeState} {i j : Nat}

/-- A node is skipped because of a failure that reaches it. -/
theorem exists_failed_of_isSkipped (h : FollowsGraph region st) (hj : (st j).isSkipped) :
    ∃ i e, region.graph.Reaches i j ∧ st i = .ended (.error e) := by
  induction j using Nat.strong_induction_on with
  | _ j ih =>
    obtain ⟨i, hi, hbad⟩ := h.skipped j hj
    have hedge : region.graph.Edge i j := hi
    cases hst : st i with
    | skipped =>
      obtain ⟨k, e, hk, hfailed⟩ := ih i (lt_of_mem_predsOf hi) (by simp [hst, NodeState.isSkipped])
      exact ⟨k, e, hk.tail hedge, hfailed⟩
    | ended o =>
      cases o with
      | error e => exact ⟨i, e, .edge hedge, hst⟩
      | ok u => simp [hst, NodeState.isBad] at hbad
    | _ => simp [hst, NodeState.isBad] at hbad

theorem isBad_eq_false_of_reaches (h : FollowsGraph region st) (hij : region.graph.Reaches i j)
    (hj : (st j).isTaken) : (st i).isBad = false := by
  induction hij with
  | edge he => exact h.taken _ hj _ he
  | @tail k j _ he ih =>
    have hgood := h.taken j hj k he
    have hwait : (st j).isWaiting = false := by
      cases hst : st j <;> simp_all [NodeState.isTaken, NodeState.isWaiting]
    have hdone := ((h.due j).1 hwait).2 k he
    refine ih ?_
    cases hst : st k <;> simp_all [NodeState.isDone, NodeState.isBad, NodeState.isTaken]

end FollowsGraph

/-- What the nodes of a run have come to when it ends with this outcome. -/
structure ComesTo (region : Program α) (st : Nat → NodeState) (outcome : Outcome) : Prop where
  follows : FollowsGraph region st
  done : ∀ j < region.ops.length, (st j).isDone
  good : (∀ j e, st j ≠ .ended (.error e)) → outcome = .ok ()
  first : ∀ i e, st i = .ended (.error e) → (∀ k < i, ∀ e', st k ≠ .ended (.error e')) →
    outcome = .error (e.attributedTo (infoAt region i))

namespace ComesTo

variable {region region' : Program α} {st st' : Nat → NodeState} {o o' : Outcome} {j : Nat}

theorem eq_waiting (h : ComesTo region st o) (hj : ¬ j < region.ops.length) : st j = .waiting := by
  have hw : (st j).isWaiting := by
    by_contra hw
    exact hj (h.follows.lt_length (by simpa using hw))
  cases hst : st j <;> simp_all [NodeState.isWaiting]

theorem eq_skipped_or_ended (h : ComesTo region st o) (hj : j < region.ops.length) :
    st j = .skipped ∨ ∃ x, st j = .ended x := by
  have := h.done j hj
  cases hst : st j <;> simp_all [NodeState.isDone]

theorem ended_iff (h : ComesTo region st o) (j : Nat) : (∃ x, st j = .ended x) ↔
    j < region.ops.length ∧
      ∀ i, region.graph.Reaches i j → ∀ e, st i ≠ .ended (.error e) := by
  constructor
  · rintro ⟨x, hx⟩
    refine ⟨h.follows.lt_length (by simp [hx, NodeState.isWaiting]), fun i hi e hfailed => ?_⟩
    have := h.follows.isBad_eq_false_of_reaches hi (by simp [hx, NodeState.isTaken])
    simp [hfailed, NodeState.isBad] at this
  · rintro ⟨hj, hgood⟩
    refine (h.eq_skipped_or_ended hj).resolve_left fun hs => ?_
    obtain ⟨i, e, hi, hfailed⟩ :=
      h.follows.exists_failed_of_isSkipped (j := j) (by simp [hs, NodeState.isSkipped])
    exact hgood i hi e hfailed

theorem skipped_iff (h : ComesTo region st o) (j : Nat) : st j = .skipped ↔
    j < region.ops.length ∧ ¬ ∃ x, st j = .ended x := by
  constructor
  · intro hs
    exact ⟨h.follows.lt_length (by simp [hs, NodeState.isWaiting]), by simp [hs]⟩
  · rintro ⟨hj, hne⟩
    exact (h.eq_skipped_or_ended hj).resolve_right hne

theorem reaches_iff (hops : region'.ops = region.ops) {i j : Nat} :
    region'.graph.Reaches i j ↔ region.graph.Reaches i j := by
  have hfs : region'.footprints = region.footprints := by simp [Region.footprints, hops]
  rw [Region.graph, Region.graph, Graph.reaches_build_iff, Graph.reaches_build_iff, hfs]

theorem ended_of_ended (h : ComesTo region st o) (h' : ComesTo region' st' o')
    (hops : region'.ops = region.ops) (hbefore : ∀ i < j, st' i = st i)
    (hj : ∃ x, st j = .ended x) : ∃ x, st' j = .ended x := by
  obtain ⟨hlt, hgood⟩ := (h.ended_iff j).1 hj
  refine (h'.ended_iff j).2 ⟨hops ▸ hlt, fun i hi e => ?_⟩
  have hi' := (reaches_iff hops).1 hi
  rw [hbefore i (Graph.lt_of_reaches_build hi')]
  exact hgood i hi' e

theorem states_unique (h : ComesTo region st o) (h' : ComesTo region' st' o')
    (hops : region'.ops = region.ops)
    (hsame : ∀ j x x', st j = .ended x → st' j = .ended x' → x' = x) (j : Nat) : st' j = st j := by
  induction j using Nat.strong_induction_on with
  | _ j ih =>
    by_cases hj : j < region.ops.length
    · rcases h.eq_skipped_or_ended hj with hs | ⟨x, hx⟩
      · refine ((h'.skipped_iff j).2 ⟨hops ▸ hj, fun hx => ?_⟩).trans hs.symm
        obtain ⟨x, hx⟩ := h'.ended_of_ended h hops.symm (fun i hi => (ih i hi).symm) hx
        simp [hs] at hx
      · obtain ⟨x', hx'⟩ := h.ended_of_ended h' hops ih ⟨x, hx⟩
        rw [hx, hx', hsame j x x' hx hx']
    · rw [h.eq_waiting hj, h'.eq_waiting (hops ▸ hj)]

theorem outcome_unique (h : ComesTo region st o) (h' : ComesTo region' st o')
    (hops : region'.ops = region.ops) : o' = o := by
  by_cases hfailed : ∃ i e, st i = .ended (.error e)
  · classical
    obtain ⟨e, he⟩ := Nat.find_spec hfailed
    have hmin : ∀ k < Nat.find hfailed, ∀ e', st k ≠ .ended (.error e') :=
      fun k hk e' hk' => Nat.find_min hfailed hk ⟨e', hk'⟩
    have hinfo : infoAt region' = infoAt region := by
      funext k
      simp [infoAt, hops]
    rw [h.first _ e he hmin, h'.first _ e he hmin, hinfo]
  · have hgood : ∀ j e, st j ≠ .ended (.error e) := fun j e hj => hfailed ⟨j, e, hj⟩
    rw [h.good hgood, h'.good hgood]

end ComesTo

/-- A run comes to its end with no task lost. -/
theorem RunView.Scheduled.comesTo {V : RunView α} {region : Program α} {st : Nat → NodeState}
    {s : Schedule} {holders : Nat} {o : Outcome} (h : V.Scheduled region st s holders (some o))
    (hdropped : ∀ j, st j ≠ .dropped) : ComesTo region st o := by
  have hdone : ∀ j < region.ops.length, (st j).isDone :=
    fun j hj => h.isDone_of_still (h.still o rfl) hdropped hj
  have hcomplete : s.isComplete :=
    h.tracks.isComplete_iff.2 fun j hj => hdone j (by rwa [Region.length_footprints] at hj)
  have hout := h.outcome o rfl
  rw [if_pos hcomplete] at hout
  refine ⟨h.follows, hdone, fun hgood => ?_, fun i e hi hmin => ?_⟩
  · cases hfirst : s.firstError with
    | none => simp [hout, Schedule.outcome, hfirst]
    | some p =>
      obtain ⟨⟨e, he, -⟩, -⟩ := h.records.first p.1 p.2 hfirst
      exact absurd he (hgood p.1 e)
  · cases hfirst : s.firstError with
    | none => exact absurd hi (h.records.noError hfirst i e)
    | some p =>
      obtain ⟨⟨e', he', hp⟩, hle⟩ := h.records.first p.1 p.2 hfirst
      have hpi : p.1 = i := by
        refine Nat.le_antisymm (hle i e hi) ?_
        by_contra hlt
        exact hmin p.1 (by omega) e' he'
      rw [hpi, hi] at he'
      obtain rfl : e = e' := by simpa using he'
      simp only [hout, Schedule.outcome, hfirst, hp, hpi]

namespace Crew

variable {s : Crew α σ ι} {r : RunKey} {region : Program α} {st : Nat → NodeState} {t : Schedule}
  {holders : Nat} {fin : Option Outcome} {o : Outcome}

/-- An operation of a run has failed. -/
def HasFailed (s : Crew α σ ι) (c : CallKey) : Prop := ∃ e, .ended c (.error e) ∈ s.log

theorem ended_mem_iff (h : (s.view r).Scheduled region st t holders fin) (j : Nat) (o : Outcome) :
    .ended ⟨r, j⟩ o ∈ s.log ↔ st j = .ended o := by
  rw [← List.count_pos_iff, ← marks_ended, (h.shown j).fixed (.ended o) rfl]
  cases st j <;> simp
  split <;> simp_all

theorem skipped_mem_iff (h : (s.view r).Scheduled region st t holders fin) (j : Nat) :
    .skipped ⟨r, j⟩ ∈ s.log ↔ st j = .skipped := by
  rw [← List.count_pos_iff, ← marks_skipped, (h.shown j).fixed .skipped rfl]
  cases st j <;> simp

theorem launched_mem_iff (h : (s.view r).Scheduled region st t holders (some o)) (j : Nat) :
    .launched ⟨r, j⟩ ∈ s.log ↔ ∃ x, st j = .ended x := by
  have hstill := h.still o rfl j
  rw [← List.count_pos_iff, ← marks_launched, (h.shown j).fixed .launched rfl]
  cases hst : st j <;> simp_all [NodeState.isStill]

theorem Reachable.exists_comesTo {b : Backend α σ ι} (h : Reachable b s) (hr : s.Schedules r region)
    (hkept : ∀ j, .dropped ⟨r, j⟩ ∉ s.log) (ho : .resolved r o ∈ s.log) :
    ∃ st t holders, (s.view r).Scheduled region st t holders (some o) ∧ ComesTo region st o := by
  obtain ⟨st, t, holders, fin, hv⟩ := hr.scheduled (h.sound.run r)
  obtain rfl := hv.fin_eq_some (Nat.add_pos_right _ (count_resolved_pos ho))
  refine ⟨st, t, holders, hv, hv.comesTo fun j hj => ?_⟩
  have := (hv.shown j).fixed .dropped rfl
  rw [marks_dropped, hj, List.count_eq_zero_of_not_mem (hkept j)] at this
  cases this

/-- When a run that goes by its graph has been resolved, with no task lost: an operation was called
if and only if it depends on none that failed, and then it has ended; all others were skipped; and
the run ends with the failure of the earliest operation that failed, if any did. Any other such run
of the same operations, with whatever backend, order and reduction, whose operations have the same
outcomes where both have called them, calls, skips and fails the same operations and ends alike. -/
theorem Reachable.containment {b : Backend α σ ι} (h : Reachable b s) (hr : s.Schedules r region)
    (hkept : ∀ j, .dropped ⟨r, j⟩ ∉ s.log) (ho : .resolved r o ∈ s.log) :
    (∀ j, .launched ⟨r, j⟩ ∈ s.log ↔ j < region.ops.length ∧
      ∀ i, region.graph.Reaches i j → ¬ s.HasFailed ⟨r, i⟩) ∧
    (∀ j, .launched ⟨r, j⟩ ∈ s.log → ∃ x, .ended ⟨r, j⟩ x ∈ s.log) ∧
    (∀ j, .skipped ⟨r, j⟩ ∈ s.log ↔ j < region.ops.length ∧ .launched ⟨r, j⟩ ∉ s.log) ∧
    ((∀ j, ¬ s.HasFailed ⟨r, j⟩) → o = .ok ()) ∧
    (∀ i e, .ended ⟨r, i⟩ (.error e) ∈ s.log → (∀ k < i, ¬ s.HasFailed ⟨r, k⟩) →
      o = .error (e.attributedTo (infoAt region i))) ∧
    ∀ (σ' ι' : Type) (b' : Backend α σ' ι') (s' : Crew α σ' ι') (r' : RunKey)
      (region' : Program α) (o' : Outcome), Reachable b' s' → s'.Schedules r' region' →
      region'.ops = region.ops → (∀ j, .dropped ⟨r', j⟩ ∉ s'.log) → .resolved r' o' ∈ s'.log →
      (∀ j x x', .ended ⟨r, j⟩ x ∈ s.log → .ended ⟨r', j⟩ x' ∈ s'.log → x' = x) →
      (∀ j, .launched ⟨r', j⟩ ∈ s'.log ↔ .launched ⟨r, j⟩ ∈ s.log) ∧
      (∀ j, .skipped ⟨r', j⟩ ∈ s'.log ↔ .skipped ⟨r, j⟩ ∈ s.log) ∧
      (∀ j, s'.HasFailed ⟨r', j⟩ ↔ s.HasFailed ⟨r, j⟩) ∧ o' = o := by
  obtain ⟨st, t, holders, hv, hends⟩ := h.exists_comesTo hr hkept ho
  have hfailed : ∀ j, s.HasFailed ⟨r, j⟩ ↔ ∃ e, st j = .ended (.error e) :=
    fun j => exists_congr fun e => ended_mem_iff hv j _
  refine ⟨fun j => ?_, fun j hj => ?_, fun j => ?_, fun hgood => ?_, fun i e hi hmin => ?_, ?_⟩
  · rw [launched_mem_iff hv, hends.ended_iff]
    simp only [hfailed, not_exists, ne_eq]
  · obtain ⟨x, hx⟩ := (launched_mem_iff hv j).1 hj
    exact ⟨x, (ended_mem_iff hv j x).2 hx⟩
  · rw [skipped_mem_iff hv, launched_mem_iff hv, hends.skipped_iff]
  · exact hends.good fun j e hj => hgood j ((hfailed j).2 ⟨e, hj⟩)
  · exact hends.first i e ((ended_mem_iff hv i _).1 hi) fun k hk e' hk' =>
      hmin k hk ((hfailed k).2 ⟨e', hk'⟩)
  · intro σ' ι' b' s' r' region' o' h' hr' hops hkept' ho' hsame
    obtain ⟨st', t', holders', hv', hends'⟩ := h'.exists_comesTo hr' hkept' ho'
    have hfailed' : ∀ j, s'.HasFailed ⟨r', j⟩ ↔ ∃ e, st' j = .ended (.error e) :=
      fun j => exists_congr fun e => ended_mem_iff hv' j _
    obtain rfl : st' = st := funext (hends.states_unique hends' hops fun j x x' hx hx' =>
      hsame j x x' ((ended_mem_iff hv j x).2 hx) ((ended_mem_iff hv' j x').2 hx'))
    refine ⟨fun j => ?_, fun j => ?_, fun j => ?_, hends.outcome_unique hends' hops⟩
    · rw [launched_mem_iff hv, launched_mem_iff hv']
    · rw [skipped_mem_iff hv, skipped_mem_iff hv']
    · rw [hfailed, hfailed']

def firstFails (c : CallKey) : Outcome := if c.node = 0 then .error .promiseDropped else .ok ()

/-- An operation that fails, one that depends on it and one that does not, executed to the end. -/
def forkDone : Crew Primitive Unit Unit :=
  single (.ending firstFails) 20
    [.leaf { name := "a" } (.scripted .copy { buffers := [.write ⟨0, 0, 1⟩] } .succeed),
      .leaf { name := "b" } (.scripted .copy { buffers := [.read ⟨0, 0, 1⟩] } .succeed),
      .leaf { name := "c" } (.scripted .copy {} .succeed)]

theorem begun_forkDone : 0 < forkDone.begun.length := by decide +kernel

theorem containment_fork : ∃ region, forkDone.Schedules ⟨0, 0, []⟩ region ∧
    .skipped ⟨⟨0, 0, []⟩, 1⟩ ∈ forkDone.log ∧
    (∀ j, .launched ⟨⟨0, 0, []⟩, j⟩ ∈ forkDone.log ↔ j < region.ops.length ∧
      ∀ i, region.graph.Reaches i j → ¬ forkDone.HasFailed ⟨⟨0, 0, []⟩, i⟩) ∧
    .resolved ⟨0, 0, []⟩
      (.error (Error.promiseDropped.attributedTo (infoAt region 0))) ∈ forkDone.log := by
  have hr : forkDone.Schedules ⟨0, 0, []⟩ (forkDone.begun.get ⟨0, begun_forkDone⟩).2 :=
    schedules_of_first begun_forkDone (by decide +kernel) (by decide +kernel) (by decide +kernel)
  have hresolved : .resolved ⟨0, 0, []⟩ (.error (Error.promiseDropped.attributedTo
      (infoAt (forkDone.begun.get ⟨0, begun_forkDone⟩).2 0))) ∈ forkDone.log := by decide +kernel
  have hall := (reachable_single _ _ _).containment hr (fun j => not_dropped_of_all (by decide +kernel) _) hresolved
  exact ⟨_, hr, by decide +kernel, hall.1, hresolved⟩

end Crew

end OpFlow.Machine
