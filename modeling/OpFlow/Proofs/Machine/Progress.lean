import OpFlow.Primitive
import OpFlow.Proofs.Machine.Log

/-!
A run that goes by its graph cannot get stuck. Its counters say which of its nodes have not
completed, a node is called or skipped at most once, and the run is settled at most once; and when no
thread, no queue and no call has anything left of it, and no task was lost, then it has come to its
end.
-/
namespace OpFlow.Machine

variable {α σ ι : Type}

namespace Crew

def hasCompleted (s : Crew α σ ι) (c : CallKey) : Bool :=
  s.log.any fun
    | .skipped c' | .ended c' _ => c' = c
    | _ => false

/-- A region is executed by its graph, as this run. -/
structure Schedules [Leaf α] (s : Crew α σ ι) (r : RunKey) (region : Program α) : Prop where
  begun : (r, region) ∈ s.begun
  concurrent : (s.world.runnerOf? r.host).isSome
  unordered : region.graph.isSequential = false

/-- No thread has anything to do for a run, no node of it is queued, and none of its calls is in
flight. -/
structure IsQuiet (s : Crew α σ ι) (r : RunKey) : Prop where
  threads : ∀ items ∈ s.threads, ∀ item ∈ items, ¬ item.minds r
  queued : ∀ node, .visit r node ∉ s.world.kept
  calls : ∀ node, s.world.call? ⟨r, node⟩ = none

variable {s : Crew α σ ι} {r : RunKey}

theorem hasCompleted_iff {c : CallKey} :
    s.hasCompleted c ↔ 0 < (s.view c.run).marks c.node .skipped ∨
      ∃ o, 0 < (s.view c.run).marks c.node (.ended o) := by
  simp only [marks_skipped, marks_ended, List.count_pos_iff, hasCompleted, List.any_eq_true]
  constructor
  · rintro ⟨e, he, hc⟩
    cases e <;> simp only [decide_eq_true_eq, Bool.false_eq_true] at hc
    case skipped => exact .inl (hc ▸ he)
    case ended o => exact .inr ⟨o, hc ▸ he⟩
  · rintro (h | ⟨o, h⟩)
    · exact ⟨_, h, by simp⟩
    · exact ⟨_, h, by simp⟩

theorem IsQuiet.count_eq_zero (h : s.IsQuiet r) {x : Sign} (hx : x.isToDo) :
    (s.view r).count x = 0 := by
  rw [count_view, List.count_eq_zero, signs]
  simp only [List.mem_append, List.mem_flatMap, threadSigns, List.mem_filterMap, not_or, not_exists,
    not_and]
  refine ⟨⟨fun items hitems item hitem hsign => ?_, fun t _ => Task.sign_ne hx⟩,
    fun e _ => Event.sign_ne hx⟩
  exact h.threads items hitems item hitem (Item.minds_of_sign hsign hx)

theorem IsQuiet.queued_eq_zero (h : s.IsQuiet r) (j : Nat) : (s.view r).marks j .queued = 0 := by
  rw [RunView.marks, count_view, List.count_eq_zero, signs]
  simp only [List.mem_append, List.mem_flatMap, threadSigns, List.mem_filterMap, not_or, not_exists,
    not_and]
  refine ⟨⟨fun _ _ item _ hsign => ?_, fun t ht hsign => ?_⟩, fun e _ hsign => ?_⟩
  · cases item <;> simp [Item.sign] at hsign
  · cases t with
    | visit r' j' =>
      obtain ⟨rfl, rfl⟩ : r' = r ∧ j' = j := by simpa [Task.sign] using hsign
      exact h.queued j' ht
    | work => simp [Task.sign] at hsign
  · cases e <;> simp [Event.sign] at hsign

/-- A node of which nothing is left to do, queued or in flight does not move. -/
theorem IsQuiet.isStill_of_shown (hq : s.IsQuiet r) {x : NodeState} {j : Nat}
    (hshown : x.Shown ((s.view r).progress j) ((s.view r).marks j)) : x.isStill := by
  have hprogress : x.progress? = none := by
    rw [← hshown.progress]
    simp [view, hq.calls]
  refine NodeState.isStill_of_quiet ?_ ?_ ?_ ?_
  · have := hshown.due
    have := hq.queued_eq_zero j
    have : (s.view r).marks j .turn = 0 := hq.count_eq_zero rfl
    omega
  · rw [← hshown.fixed .call rfl]
    exact hq.count_eq_zero rfl
  · rw [← hshown.fixed .returned rfl]
    exact hq.count_eq_zero rfl
  · cases x <;> simp_all [NodeState.progress?, NodeState.isAwaited]

variable [Leaf α] {region : Program α}

/-- A run that goes by its graph is in order as such. -/
theorem Schedules.scheduled (h : s.Schedules r region) (hs : s.RunSound r) :
    ∃ st t holders fin, (s.view r).Scheduled region st t holders fin := by
  have hmem : region ∈ (s.view r).regions := by
    rw [view, List.mem_filterMap]
    exact ⟨_, h.begun, by simp⟩
  cases hs with
  | idle hv => rw [hv.regions] at hmem; cases hmem
  | @empty region' hv =>
    obtain rfl : region = region' := by simpa [hv.regions] using hmem
    have := h.unordered
    simp [Graph.isSequential, Region.graph, Region.footprints, hv.empty] at this
  | @ordered region' st fin hv =>
    obtain rfl : region = region' := by simpa [hv.regions] using hmem
    have := hv.ordered h.concurrent
    rw [h.unordered] at this
    cases this
  | @scheduled region' st t holders fin hv =>
    obtain rfl : region = region' := by simpa [hv.regions] using hmem
    exact ⟨st, t, holders, fin, hv⟩

end Crew

namespace RunView.Scheduled

variable [Leaf α] {V : RunView α} {region : Program α} {st : Nat → NodeState} {s : Schedule}
  {holders : Nat} {fin : Option Outcome}

theorem isDone_of_still (h : V.Scheduled region st s holders fin) (hstill : ∀ j, (st j).isStill)
    (hdropped : ∀ j, st j ≠ .dropped) {j : Nat} (hj : j < region.ops.length) : (st j).isDone := by
  induction j using Nat.strong_induction_on with
  | _ j ih =>
    have hpreds : ∀ i ∈ region.graph.predsOf j, (st i).isDone := fun i hi => by
      have hlt := FollowsGraph.lt_of_mem_predsOf hi
      exact ih i hlt (hlt.trans hj)
    have hwait := (h.follows.due j).2 ⟨hj, hpreds⟩
    have hnot := hstill j
    have hkept := hdropped j
    cases hx : st j <;> simp_all [NodeState.isWaiting, NodeState.isStill, NodeState.isDone]

theorem marks_called_le (h : V.Scheduled region st s holders fin) (j : Nat) :
    V.marks j .launched + V.marks j .skipped ≤ 1 := by
  rw [(h.shown j).fixed .launched rfl, (h.shown j).fixed .skipped rfl]
  cases st j <;> simp

theorem marks_called_of_isDone (h : V.Scheduled region st s holders fin) {j : Nat}
    (hj : (st j).isDone) : V.marks j .launched + V.marks j .skipped = 1 := by
  rw [(h.shown j).fixed .launched rfl, (h.shown j).fixed .skipped rfl]
  cases hx : st j <;> simp_all [NodeState.isDone]

theorem exists_fin (h : V.Scheduled region st s holders fin)
    (hdone : ∀ j < region.ops.length, (st j).isDone) : ∃ o, fin = some o := by
  cases fin with
  | some o => exact ⟨o, rfl⟩
  | none =>
    have hopen := h.unfinished rfl
    rw [h.tracks.isComplete_iff.2 fun j hj => hdone j (by rwa [Region.length_footprints] at hj)] at hopen
    cases hopen

end RunView.Scheduled

namespace Crew

variable [Leaf α] {s : Crew α σ ι} {r : RunKey} {region : Program α} {st : Nat → NodeState}
  {t : Schedule} {holders : Nat} {fin : Option Outcome}

theorem hasCompleted_eq (h : (s.view r).Scheduled region st t holders fin) (j : Nat) :
    s.hasCompleted ⟨r, j⟩ = (st j).isDone := by
  rw [Bool.eq_iff_iff, hasCompleted_iff]
  simp only [(h.shown j).fixed .skipped rfl, (h.shown j).fixed (.ended _) rfl]
  cases st j with
  | ended o => simpa [NodeState.isDone] using ⟨o, by simp⟩
  | _ => simp [NodeState.isDone]

theorem IsQuiet.isStill (hq : s.IsQuiet r) (h : (s.view r).Scheduled region st t holders fin)
    (j : Nat) : (st j).isStill := hq.isStill_of_shown (h.shown j)

/-- A run that goes by its graph: until it is resolved its schedule counts what has not completed;
no node is called or skipped twice and the run is not settled twice; and once it is quiet, with no
task lost, each node was called or skipped and the run is resolved, with it the execution if it is
the outermost run. -/
theorem Reachable.scheduled_completes {b : Backend α σ ι} (h : Reachable b s) (hr : s.Schedules r region) :
    ((∀ o, .resolved r o ∉ s.log) → ∃ t holders,
      s.world.run? r = some ⟨region, .scheduled t holders⟩ ∧
      (∀ j < region.ops.length, t.pending[j]? =
        some ((region.graph.predsOf j).countP fun i => !s.hasCompleted ⟨r, i⟩)) ∧
      t.remaining = (List.range region.ops.length).countP fun j => !s.hasCompleted ⟨r, j⟩) ∧
    (∀ j, s.log.count (.launched ⟨r, j⟩) + s.log.count (.skipped ⟨r, j⟩) ≤ 1) ∧
    (s.endings r).length ≤ 1 ∧
    (s.IsQuiet r → (∀ j, .dropped ⟨r, j⟩ ∉ s.log) →
      (∀ j < region.ops.length,
        s.log.count (.launched ⟨r, j⟩) + s.log.count (.skipped ⟨r, j⟩) = 1) ∧
      ∃ o, .resolved r o ∈ s.log ∧
        (r.scope = [] → s.world.outcome? r.host r.execution = some o)) := by
  obtain ⟨st, t, holders, fin, hv⟩ := hr.scheduled (h.sound.run r)
  have hdone := hasCompleted_eq hv
  refine ⟨fun hopen => ⟨t, holders, ?_, fun j hj => ?_, ?_⟩, fun j => ?_,
    (h.sound.run r).length_endings, fun hq hkept => ?_⟩
  · refine hv.live fun o => ?_
    rw [count_resolved, List.count_eq_zero]
    exact hopen o
  · have hj' : j < region.footprints.length := by rwa [Region.length_footprints]
    have hpending := hv.tracks.pending j hj'
    have hsome : j < t.pending.size := by rwa [hv.tracks.size_pending]
    rw [hv.tracks.graph] at hpending
    rw [Array.getElem?_eq_getElem hsome] at hpending ⊢
    simp only [hdone]
    exact congrArg some hpending
  · have := hv.tracks.remaining
    rw [Region.length_footprints] at this
    simpa only [hdone] using this
  · rw [← marks_launched, ← marks_skipped]
    exact hv.marks_called_le j
  · have hdropped : ∀ j, st j ≠ .dropped := fun j hj => by
      have := (hv.shown j).fixed .dropped rfl
      rw [marks_dropped, hj, List.count_eq_zero_of_not_mem (hkept j)] at this
      cases this
    have hall : ∀ j < region.ops.length, (st j).isDone := fun j hj =>
      hv.isDone_of_still (hq.isStill hv) hdropped hj
    obtain ⟨o, rfl⟩ := hv.exists_fin hall
    have hresolved : .resolved r o ∈ s.log := by
      have hover := hv.closing o
      rw [hq.count_eq_zero rfl, if_pos rfl, count_resolved] at hover
      exact List.count_pos_iff.1 (by omega)
    refine ⟨fun j hj => ?_, o, hresolved, fun hscope => h.outcome hscope hresolved⟩
    rw [← marks_launched, ← marks_skipped]
    exact hv.marks_called_of_isDone (hall j hj)

omit [Leaf α] in
theorem isQuiet_of_empty (hthreads : s.threads.flatten.length = 0) (hkept : s.world.kept.length = 0)
    (hcalls : (s.world.execution? r.host r.execution).all fun x => x.calls.size == 0) :
    s.IsQuiet r := by
  refine ⟨fun items hitems item hitem => ?_, fun node => ?_, fun node => ?_⟩
  · have hall := List.flatten_eq_nil_iff.1 (List.length_eq_zero_iff.1 hthreads)
    rw [hall items hitems] at hitem
    cases hitem
  · rw [List.length_eq_zero_iff.1 hkept]
    simp
  · cases hx : s.world.execution? r.host r.execution with
    | none => simp [World.call?, hx]
    | some x =>
      have : x.calls.entries = [] := by simpa [hx, Assoc.size] using hcalls
      simp [World.call?, hx, Assoc.get?, this]

omit [Leaf α] in
theorem not_dropped_of_all (h : s.log.all fun e => match e with | .dropped _ => false | _ => true)
    (c : CallKey) : .dropped c ∉ s.log := fun hc => by
  simpa using List.all_eq_true.1 h _ hc

theorem schedules_of_first (hlt : 0 < s.begun.length) (hkey : (s.begun.get ⟨0, hlt⟩).1 = r)
    (hc : (s.world.runnerOf? r.host).isSome)
    (hu : (s.begun.get ⟨0, hlt⟩).2.graph.isSequential = false) :
    s.Schedules r (s.begun.get ⟨0, hlt⟩).2 :=
  ⟨hkey ▸ List.get_mem .., hc, hu⟩

def alone (ops : List (Operation Primitive)) : World Primitive Unit Unit where
  device := ()
  hosts := #[{ program := { ops }, runner := some 0 }]
  runners := #[.inline]

theorem isFresh_alone (ops : List (Operation Primitive)) : (alone ops).IsFresh :=
  ⟨rfl, by simp [alone], by simp [alone, Runner.queued]⟩

def single (b : Backend Primitive Unit Unit) (n : Nat) (ops : List (Operation Primitive)) :
    Crew Primitive Unit Unit :=
  (Crew.act b 0)^[n] (({ world := alone ops } : Crew _ _ _).execute 0)

theorem reachable_single (b : Backend Primitive Unit Unit) (n : Nat)
    (ops : List (Operation Primitive)) : Reachable b (single b n ops) :=
  ((Reachable.fresh (isFresh_alone _)).execute 0).acts 0 n

def pairDone : Crew Primitive Unit Unit :=
  single (.ending fun _ => .ok ()) 16 [.leaf { name := "a" } (.scripted .copy {} .succeed),
    .leaf { name := "b" } (.scripted .copy {} .succeed)]

theorem begun_pairDone : 0 < pairDone.begun.length := by decide +kernel

theorem scheduled_completes_pair : ∃ region, region.ops.length = 2 ∧
    pairDone.Schedules ⟨0, 0, []⟩ region ∧ pairDone.IsQuiet ⟨0, 0, []⟩ ∧
    (∀ j < region.ops.length, pairDone.log.count (.launched ⟨⟨0, 0, []⟩, j⟩) +
      pairDone.log.count (.skipped ⟨⟨0, 0, []⟩, j⟩) = 1) ∧
    ∃ o, .resolved ⟨0, 0, []⟩ o ∈ pairDone.log ∧ pairDone.world.outcome? 0 0 = some o := by
  have hr : pairDone.Schedules ⟨0, 0, []⟩ (pairDone.begun.get ⟨0, begun_pairDone⟩).2 :=
    schedules_of_first begun_pairDone (by decide +kernel) (by decide +kernel) (by decide +kernel)
  have hq : pairDone.IsQuiet ⟨0, 0, []⟩ :=
    isQuiet_of_empty (by decide +kernel) (by decide +kernel) (by decide +kernel)
  have hall := ((reachable_single _ _ _).scheduled_completes hr).2.2.2 hq
    fun j => not_dropped_of_all (by decide +kernel) _
  obtain ⟨o, ho, hout⟩ := hall.2
  exact ⟨_, by decide +kernel, hr, hq, hall.1, o, ho, hout rfl⟩

end Crew

end OpFlow.Machine
