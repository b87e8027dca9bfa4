import OpFlow.Proofs.Machine.Nesting
import OpFlow.Proofs.Machine.Progress

/-!
A crew that has come to rest: no thread has anything to do and nothing is queued. Then a run whose
tasks were not lost stands still at operations that are awaited; where there are none it has ended,
and well unless one of its operations failed.
-/
namespace OpFlow.Machine

variable {α σ ι : Type}

theorem NodeState.Shown.isStill_or_awaited {x : NodeState} {p : Option Progress} {m : Mark → Nat}
    (h : x.Shown p m) (hturn : m .turn = 0) (hqueued : m .queued = 0) (hcall : m .call = 0)
    (hreturned : m .returned = 0) : x.isStill ∨ x = .running .awaited := by
  have hdue := h.due
  have hcalled := h.fixed .call rfl
  have hback := h.fixed .returned rfl
  cases x with
  | running p => cases p <;> simp_all
  | _ => simp_all [isStill, isDue]

namespace Crew

/-- No thread has anything to do, and no task is queued. -/
structure IsIdle (s : Crew α σ ι) : Prop where
  threads : ∀ items ∈ s.threads, items = []
  kept : s.world.kept = []

variable {s : Crew α σ ι} {r : RunKey}

theorem IsIdle.count_eq_zero (h : s.IsIdle) {x : Sign} (hx : Event.ofSign (r, x) = none) :
    (s.view r).count x = 0 := by
  have hthreads : s.threads.flatMap threadSigns = [] := by
    rw [List.flatMap_eq_nil_iff]
    intro items hitems
    rw [h.threads items hitems]
    rfl
  rw [count_view, signs, hthreads, h.kept, List.count_eq_zero]
  simp only [List.filterMap_nil, List.append_nil, List.nil_append, List.mem_filterMap, not_exists,
    not_and]
  intro e _ he
  have := hx.symm.trans (Event.ofSign_eq he)
  cases this

theorem IsIdle.shown (h : s.IsIdle) {x : NodeState} {j : Nat}
    (hx : x.Shown ((s.view r).progress j) ((s.view r).marks j)) :
    x.isStill ∨ x = .running .awaited :=
  hx.isStill_or_awaited (h.count_eq_zero rfl) (h.count_eq_zero rfl) (h.count_eq_zero rfl)
    (h.count_eq_zero rfl)

theorem ended_of_shown {x : NodeState} {j : Nat} {o : Outcome}
    (hx : x.Shown ((s.view r).progress j) ((s.view r).marks j)) :
    .ended ⟨r, j⟩ o ∈ s.log ↔ x = .ended o := by
  have hmark := hx.fixed (.ended o) rfl
  rw [marks_ended] at hmark
  rw [← List.count_pos_iff, hmark]
  cases x with
  | ended o' => by_cases ho : o' = o <;> simp [ho]
  | _ => simp

variable [Leaf α] {region : Program α} {j : Nat}

/-- When no thread has anything to do, a call in flight is awaited. -/
theorem Sound.awaited_of_call (hs : s.Sound) (hrest : ∀ items ∈ s.threads, items = []) {c : CallKey}
    {y : Call} (hy : s.world.call? c = some y) : y.progress = .awaited := by
  have hnone : (s.view c.run).marks c.node .returned = 0 :=
    count_eq_zero_of_not_minds (fun items hitems item hmem => by
      rw [hrest items hitems] at hmem
      cases hmem) rfl
  have hprogress : (s.view c.run).progress c.node = some y.progress :=
    congrArg (Option.map Call.progress) hy
  have hshown : ∀ {z : NodeState}, z.Shown ((s.view c.run).progress c.node)
      ((s.view c.run).marks c.node) → y.progress = .awaited := fun {z} hz => by
    have hmark := hz.fixed .returned rfl
    rw [hprogress] at hz
    rw [hz.eq_running, hnone] at hmark
    cases hp : y.progress with
    | awaited => rfl
    | entered | settled o => rw [hp] at hmark; cases hmark
  cases hs.run c.run with
  | idle hv | empty hv =>
    rw [hv.progress] at hprogress
    cases hprogress
  | ordered hv | scheduled hv => exact hshown (hv.shown c.node)

theorem IsIdle.awaited_of_call (h : s.IsIdle) (hs : s.Sound) {c : CallKey} {y : Call}
    (hy : s.world.call? c = some y) : y.progress = .awaited :=
  hs.awaited_of_call h.threads hy

/-- An operation of which all earlier ones have ended well has ended too, or it is awaited. -/
theorem IsIdle.ended_or_awaited (h : s.IsIdle) (hs : s.Sound) (hr : (r, region) ∈ s.begun)
    (hdropped : ∀ j, .dropped ⟨r, j⟩ ∉ s.log) (hj : j < region.ops.length)
    (hbefore : ∀ i < j, .ended ⟨r, i⟩ (.ok ()) ∈ s.log) :
    .launched ⟨r, j⟩ ∈ s.log ∧ ((∃ o, .ended ⟨r, j⟩ o ∈ s.log) ∨
      ∃ y, s.world.call? ⟨r, j⟩ = some y ∧ y.progress = .awaited) := by
  have hfound : ∀ {x : NodeState}, x.Shown ((s.view r).progress j) ((s.view r).marks j) →
      x.isWaiting = false → x.isSkipped = false →
      .launched ⟨r, j⟩ ∈ s.log ∧ ((∃ o, .ended ⟨r, j⟩ o ∈ s.log) ∨
        ∃ y, s.world.call? ⟨r, j⟩ = some y ∧ y.progress = .awaited) := fun {x} hx hwait hskip => by
    have hlaunched := hx.fixed .launched rfl
    have hdrop := hx.fixed .dropped rfl
    rw [marks_launched] at hlaunched
    rw [marks_dropped, List.count_eq_zero_of_not_mem (hdropped j)] at hdrop
    rcases h.shown hx with hstill | rfl
    · cases x with
      | ended o =>
        refine ⟨List.count_pos_iff.1 (by simp [hlaunched]), .inl ⟨o, ?_⟩⟩
        exact (ended_of_shown hx).2 rfl
      | dropped => cases hdrop
      | waiting => cases hwait
      | skipped => cases hskip
      | due | called | running => cases hstill
    · refine ⟨List.count_pos_iff.1 (by simp [hlaunched]), .inr ?_⟩
      have hp : (s.world.call? ⟨r, j⟩).map Call.progress = some .awaited := hx.progress
      exact Option.map_eq_some_iff.1 hp
  rw [mem_begun_iff] at hr
  cases hs.run r with
  | idle hv => rw [hv.regions] at hr; cases hr
  | empty hv =>
    rw [hv.regions, List.mem_singleton] at hr
    rw [hr, hv.empty] at hj
    cases hj
  | @ordered region' st fin hv =>
    rw [hv.regions, List.mem_singleton] at hr
    subst hr
    have hwait := (hv.follows.due j).2 ⟨hj, fun i hi => by
      rw [(ended_of_shown (hv.shown i)).1 (hbefore i hi)]
      simp [NodeState.endsWith]⟩
    have htaken := hv.follows.taken j hwait
    refine hfound (hv.shown j) hwait ?_
    cases hx : st j <;> simp_all [NodeState.isTaken, NodeState.isSkipped]
  | @scheduled region' st t holders fin hv =>
    rw [hv.regions, List.mem_singleton] at hr
    subst hr
    have hended : ∀ i ∈ region.graph.predsOf j, st i = .ended (.ok ()) := fun i hi =>
      (ended_of_shown (hv.shown i)).1 (hbefore i (FollowsGraph.lt_of_mem_predsOf hi))
    have hwait := (hv.follows.due j).2 ⟨hj, fun i hi => by
      rw [hended i hi]
      rfl⟩
    refine hfound (hv.shown j) hwait ?_
    by_contra hskip
    obtain ⟨i, hi, hbad⟩ := hv.follows.skipped j (by simpa using hskip)
    rw [hended i hi] at hbad
    cases hbad

/-- A run all of whose operations have ended well has ended well. -/
theorem IsIdle.resolved (h : s.IsIdle) (hs : s.Sound) (hr : (r, region) ∈ s.begun)
    (hall : ∀ j < region.ops.length, .ended ⟨r, j⟩ (.ok ()) ∈ s.log) :
    .resolved r (.ok ()) ∈ s.log := by
  have hlog : 0 < (s.view r).count (.resolved (.ok ())) → .resolved r (.ok ()) ∈ s.log :=
    fun hpos => by
      rw [count_resolved] at hpos
      exact List.count_pos_iff.1 hpos
  have hopen : (s.view r).count (.closing (.ok ())) = 0 := h.count_eq_zero rfl
  rw [mem_begun_iff] at hr
  cases hs.run r with
  | idle hv => rw [hv.regions] at hr; cases hr
  | empty hv =>
    have := hv.closing
    exact hlog (by omega)
  | @ordered region' st fin hv =>
    rw [hv.regions, List.mem_singleton] at hr
    subst hr
    have hended : ∀ j < region.ops.length, st j = .ended (.ok ()) := fun j hj =>
      (ended_of_shown (hv.shown j)).1 (hall j hj)
    have hlt : ∀ j, (st j).isWaiting = false → j < region.ops.length := fun j hj =>
      hv.follows.lt_length hj
    have hfin : fin = some (.ok ()) := by
      cases fin with
      | none =>
        obtain ⟨j, hj⟩ := hv.unfinished rfl
        rw [hended j (hlt j (NodeState.isWaiting_eq_false_of_isStill hj))] at hj
        cases hj
      | some o =>
        cases o with
        | ok => rfl
        | error e =>
          obtain ⟨j, e', hj, -⟩ := hv.bad e rfl
          have := hended j (hlt j (by rw [hj]; rfl))
          rw [hj] at this
          cases this
    have hclosing := hv.closing (.ok ())
    rw [if_pos hfin] at hclosing
    exact hlog (by omega)
  | @scheduled region' st t holders fin hv =>
    rw [hv.regions, List.mem_singleton] at hr
    subst hr
    have hended : ∀ j < region.ops.length, st j = .ended (.ok ()) := fun j hj =>
      (ended_of_shown (hv.shown j)).1 (hall j hj)
    have hdone : ∀ j < region.ops.length, (st j).isDone := fun j hj => by
      rw [hended j hj]
      rfl
    obtain ⟨o, rfl⟩ := hv.exists_fin hdone
    have hcomplete : t.isComplete :=
      hv.tracks.isComplete_iff.2 fun j hj => hdone j (by rwa [Region.length_footprints] at hj)
    have herror : t.firstError = none := by
      cases hf : t.firstError with
      | none => rfl
      | some p =>
        obtain ⟨i, e'⟩ := p
        obtain ⟨⟨e, hi, -⟩, -⟩ := hv.records.first i e' hf
        have := hended i (hv.follows.lt_length (by rw [hi]; rfl))
        rw [hi] at this
        cases this
    have ho : o = .ok () := by
      rw [hv.outcome o rfl, if_pos hcomplete, Schedule.outcome, herror]
    subst ho
    have hclosing := hv.closing (.ok ())
    rw [if_pos rfl] at hclosing
    exact hlog (by omega)

end Crew

end OpFlow.Machine
