import OpFlow.Proofs.Machine.Containment
import OpFlow.Proofs.Machine.Flight

/-!
Tasks may be lost, but no run is. The state of a run that goes by its graph has a holder for as long
as it exists, and the last one to let go settles the run. So a run of which nothing is left on
threads, in queues or in flight has been resolved: well, with its earliest failure, or, if an
operation was neither called nor skipped, as one whose promise was dropped.
-/
namespace OpFlow.Machine

variable {α σ ι : Type}

namespace World

def IsHeld (w : World α σ ι) : Prop :=
  ∀ r region s holders, w.run? r = some ⟨region, .scheduled s holders⟩ → 0 < holders

namespace IsHeld

variable {w w' : World α σ ι} {b : Backend α σ ι} {items : List (Item α ι)} {tasks : List (Task ι)}
  {calls : CallKey → Option Call} {r : RunKey}

theorem of_run (h : w.IsHeld) (hrun : w'.run? = w.run?) : w'.IsHeld :=
  fun r region s holders hr => h r region s holders (by rw [← hrun]; exact hr)

theorem same (h : w.IsHeld) (hb : w.Became w' items tasks w.run? calls) : w'.IsHeld :=
  h.of_run hb.run

theorem update (h : w.IsHeld) {x : Option (Run α)}
    (hb : w.Became w' items tasks (Function.update w.run? r x) calls)
    (hx : ∀ region s holders, x = some ⟨region, .scheduled s holders⟩ → 0 < holders) :
    w'.IsHeld := by
  intro r' region s holders hr
  rw [hb.run, Function.update_apply] at hr
  split at hr
  · exact hx region s holders hr
  · exact h r' region s holders hr

theorem scheduled (h : w.IsHeld) {region : Program α} {s : Schedule} {holders : Nat}
    (hb : w.Became w' items tasks
      (Function.update w.run? r (some ⟨region, .scheduled s holders⟩)) calls)
    (hpos : 0 < holders) : w'.IsHeld :=
  h.update hb fun _ _ _ hx => by
    obtain ⟨-, hmode⟩ := Run.mk.inj (Option.some.inj hx)
    exact (RunMode.scheduled.inj hmode).2 ▸ hpos

theorem start [Leaf α] (h : w.IsHeld) (hr : w.Knows r) (region : Program α) :
    (w.start r region).IsHeld := by
  by_cases hempty : region.ops = []
  · exact h.same (start_empty hempty)
  · by_cases hrunner : (w.runnerOf? r.host).isSome ∧ region.graph.isSequential = false
    · exact h.scheduled (start_scheduled hr hempty hrunner.1 hrunner.2) Nat.one_pos
    · refine h.update (start_ordered hr hempty fun hsome => ?_) fun _ _ _ hx => by simp at hx
      by_contra hne
      exact hrunner ⟨hsome, by simpa using hne⟩

theorem finish (h : w.IsHeld) (c : CallKey) (o : Outcome) (atOnce : Bool) :
    (w.finish c o atOnce).IsHeld := by
  cases hrun : w.run? c.run with
  | none => exact h.same (finish_gone hrun)
  | some x =>
    obtain ⟨region, mode⟩ := x
    cases mode with
    | ordered => exact h.same (finish_ordered atOnce hrun)
    | scheduled s holders => exact h.scheduled (finish_scheduled atOnce hrun rfl) (h _ _ _ _ hrun)

theorem visit (h : w.IsHeld) (r : RunKey) (node : Nat) : (w.visit r node).IsHeld := by
  by_cases hrun : ∃ region s holders, w.run? r = some ⟨region, .scheduled s holders⟩
  · obtain ⟨region, s, holders, hrun⟩ := hrun
    cases hp : s.isPoisoned node with
    | true => exact h.scheduled (visit_poisoned hrun hp rfl) (h _ _ _ _ hrun)
    | false =>
      cases hc : s.conflict? node with
      | none => exact h.scheduled (visit_enter hrun hp hc) (h _ _ _ _ hrun)
      | some other =>
        refine h.of_run ?_
        rw [World.visit, hrun]
        simp only [hp, Bool.false_eq_true, if_false, hc]
        rfl
  · refine h.of_run ?_
    rw [World.visit]
    split
    case h_1 region s holders hs => exact absurd ⟨region, s, holders, hs⟩ hrun
    case h_2 => rfl

theorem hold (h : w.IsHeld) (r : RunKey) : (w.hold r).IsHeld := by
  rw [World.hold]
  split
  case h_1 region s holders hrun =>
    exact h.scheduled ((Became.refl w).setRun (knows_of_run? hrun) _) (Nat.succ_pos _)
  case h_2 => exact h

theorem submit (h : w.IsHeld) (r : RunKey) (node : Nat) : (w.submit r node).IsHeld := by
  rw [World.submit]
  split <;> exact (h.hold r).of_run rfl

theorem release (h : w.IsHeld) (r : RunKey) : (w.release r).IsHeld := by
  by_cases hrun : ∃ region s holders, w.run? r = some ⟨region, .scheduled s holders⟩
  · obtain ⟨region, s, holders, hrun⟩ := hrun
    by_cases hlast : holders ≤ 1
    · exact h.same (release_last hrun hlast)
    · exact h.scheduled (release_other hrun hlast) (by omega)
  · refine h.of_run ?_
    rw [World.release]
    split
    case h_1 region s holders hs => exact absurd ⟨region, s, holders, hs⟩ hrun
    case h_2 => rfl

theorem settle (h : w.IsHeld) (c : CallKey) (o : Outcome) : (w.settle c o).IsHeld := by
  rw [World.settle]
  split
  · exact h.of_run (funext fun r => run?_setCall w r c _)
  · exact h.finish c o false
  · exact h
  · exact h

theorem returned (h : w.IsHeld) (c : CallKey) : (w.returned c).IsHeld := by
  rw [World.returned]
  split
  · exact h.finish c _ true
  · exact (h.hold c.run).of_run (funext fun r => run?_setCall _ r c _)
  · exact h

theorem call (h : w.IsHeld) (c : CallKey) : (w.call b c).IsHeld := by
  cases hop : w.operation? c with
  | none => rwa [World.call, hop]
  | some op =>
    obtain ⟨x, hx, -⟩ := Option.bind_eq_some_iff.1 hop
    obtain ⟨opening, l, -, hb⟩ := call_cases (b := b) (knows_of_run? hx) hop
    exact h.same hb

theorem advance (h : w.IsHeld) (c : CallKey) (y : Call) (l : LoopState) (o : Outcome) :
    (w.advance b c y l o).IsHeld := by
  have hset : ∀ y' items, ((w.setCall c y').push items).IsHeld := fun y' _ =>
    h.of_run (funext fun r => run?_setCall w r c y')
  cases o with
  | error e => exact h.of_run rfl
  | ok u =>
    rw [World.advance]
    split
    · exact hset _ _
    · split
      · split
        · exact h.of_run rfl
        · split
          · exact hset _ _
          · exact h.of_run rfl
      · exact h

theorem iterate (h : w.IsHeld) (c : CallKey) : (w.iterate c).IsHeld := by
  rw [World.iterate]
  split
  · split
    · exact h.of_run rfl
    · exact h.of_run (funext fun r => run?_setCall w r c _)
  · exact h

theorem iterated (h : w.IsHeld) (c : CallKey) : (w.iterated b c).IsHeld := by
  rw [World.iterated]
  split
  · split
    · exact h.advance c _ _ _
    · exact h.of_run (funext fun r => run?_setCall w r c _)
    · exact h.of_run (funext fun r => run?_setCall w r c _)
  · exact h

theorem settleRun (h : w.IsHeld) (r : RunKey) (o : Outcome) : (w.settleRun b r o).IsHeld := by
  have hx : ∀ region s holders,
      (none : Option (Run α)) = some ⟨region, .scheduled s holders⟩ → 0 < holders := by simp
  cases hr : r.caller? with
  | none => exact h.update (settleRun_outermost hr o) hx
  | some c =>
    obtain ⟨items, y, hb, -⟩ := settleRun_nested (w := w) (b := b) hr o
    exact h.update hb hx

theorem carryOut (h : w.IsHeld) (e : Effect ι) : (w.carryOut b e).IsHeld := by
  cases e with
  | settle c o => exact h.settle c o
  | work i =>
    obtain ⟨items, hb, -⟩ := carryOut_work (w := w) b i
    exact h.same hb
  | submit k i =>
    obtain ⟨items, tasks, hb, -⟩ := carryOut_submit (w := w) b k i
    exact h.same hb

theorem step [Leaf α] {item : Item α ι} {agenda : List (Item α ι)} (h : w.IsHeld)
    (hw : w.agenda = item :: agenda) (hstep : w.step? b = some w')
    (hknown : ∀ r region, item = .start r region → w.Knows r) : w'.IsHeld := by
  have h' : ({ w with agenda } : World α σ ι).IsHeld := h.of_run rfl
  rw [step?, hw] at hstep
  obtain rfl := Option.some.inj hstep
  cases item with
  | start r region => exact h'.start (hknown r region rfl) region
  | visit r node => exact h'.visit r node
  | submit r node => exact h'.submit r node
  | release r => exact h'.release r
  | call c => exact h'.call c
  | returned c => exact h'.returned c
  | settle c o => exact h'.settle c o
  | settleRun r o => exact h'.settleRun r o
  | iterate c => exact h'.iterate c
  | iterated c => exact h'.iterated c
  | effect e => exact h'.carryOut e

end IsHeld

end World

/-- All operations of a run that has ended well have been called and have ended well. -/
theorem ComesTo.eq_ended [Leaf α] {region : Program α} {st : Nat → NodeState}
    (h : ComesTo region st (.ok ())) {j : Nat} (hj : j < region.ops.length) :
    st j = .ended (.ok ()) := by
  have hgood : ∀ i e, st i ≠ .ended (.error e) := fun i e hi => by
    classical
    have hfailed : ∃ i e, st i = .ended (.error e) := ⟨i, e, hi⟩
    obtain ⟨e', he'⟩ := Nat.find_spec hfailed
    have := h.first _ e' he' fun k hk e'' hk' => Nat.find_min hfailed hk ⟨e'', hk'⟩
    cases this
  rcases h.eq_skipped_or_ended hj with hskipped | ⟨x, hx⟩
  · obtain ⟨i, e, -, hi⟩ := h.follows.exists_failed_of_isSkipped (j := j) (by rw [hskipped]; rfl)
    exact absurd hi (hgood i e)
  · cases x with
    | ok => exact hx
    | error e => exact absurd hx (hgood j e)

namespace Crew

variable [Leaf α] {b : Backend α σ ι} {s : Crew α σ ι} {r : RunKey} {region : Program α}
  {st : Nat → NodeState} {t : Schedule} {holders : Nat} {fin : Option Outcome} {o : Outcome}

theorem Reachable.isHeld (h : Reachable b s) : s.world.IsHeld := by
  induction h with
  | @fresh w hw =>
    intro r region t holders hr
    have hknows := World.knows_of_run? hr
    simp [World.Knows, hw.execution?_eq_none] at hknows
  | @move s t ch hs hm ih =>
    rcases hm.spawned with ⟨i, item, rest, w, hi, hw, rfl⟩ | ⟨tasks, agenda, events, hsp, -⟩
    · have hheld : (s.seenBy (item :: rest)).IsHeld := ih.of_run rfl
      refine World.IsHeld.of_run (hheld.step rfl hw fun r region hitem => ?_) rfl
      exact hs.sound.known r (hasBegun_of_head (hitem ▸ hi))
    · exact ih.of_run hsp.run

/-- Nothing of a run is left: each task of it has been done or was lost, each of its operations that
was called has ended, and no thread holds it. -/
structure IsSpent (s : Crew α σ ι) (r : RunKey) : Prop extends s.IsQuiet r where
  released : ∀ items ∈ s.threads, .release r ∉ items

theorem IsSpent.held_eq_zero (hs : s.IsSpent r)
    (h : (s.view r).Scheduled region st t holders fin) : (s.view r).held region st = 0 := by
  have hnone : (s.view r).count .hold = 0 := by
    rw [count_view, List.count_eq_zero, signs]
    simp only [List.mem_append, List.mem_flatMap, threadSigns, List.mem_filterMap, not_or,
      not_exists, not_and]
    refine ⟨⟨fun items hitems item hitem hsign => ?_, fun t _ hsign => ?_⟩, fun e _ hsign => ?_⟩
    · cases item <;> simp only [Item.sign, Option.some.injEq, Prod.mk.injEq, reduceCtorEq,
        and_false, and_true] at hsign
      exact hs.released items hitems (hsign ▸ hitem)
    · cases t <;> simp [Task.sign] at hsign
    · cases e <;> simp [Event.sign] at hsign
  have hnode : ∀ k, (s.view r).count (.node k .queued) + (st k).isAwaited.toNat = 0 := fun k => by
    have hstill := hs.isStill h k
    have hqueued : (s.view r).count (.node k .queued) = 0 := hs.queued_eq_zero k
    cases hk : st k <;> simp_all [NodeState.isStill, NodeState.isAwaited]
  rw [RunView.held, hnone, Finset.sum_eq_zero fun k _ => hnode k, Nat.add_zero]

theorem IsSpent.resolved (h : Reachable b s) (hs : s.IsSpent r)
    (hv : (s.view r).Scheduled region st t holders fin) :
    ∃ o, fin = some o ∧ .resolved r o ∈ s.log := by
  cases fin with
  | none =>
    have hpos := h.isHeld r region t holders hv.run_eq
    have hzero := hv.held (.inl rfl) (by rw [hv.run_eq]; rfl)
    rw [hs.held_eq_zero hv] at hzero
    omega
  | some o =>
    have hover := hv.closing o
    rw [hs.count_eq_zero rfl, if_pos rfl, count_resolved] at hover
    exact ⟨o, rfl, List.count_pos_iff.1 (by omega)⟩

theorem isDone_iff_called (h : (s.view r).Scheduled region st t holders (some o)) (j : Nat) :
    (st j).isDone ↔ .launched ⟨r, j⟩ ∈ s.log ∨ .skipped ⟨r, j⟩ ∈ s.log := by
  rw [launched_mem_iff h, skipped_mem_iff h]
  cases st j <;> simp [NodeState.isDone]

/-- A run that goes by its graph, some of whose tasks may have been lost, whichever these are. An
operation is called only after all those have ended well that come before it and conflict with it.
And as soon as nothing is left of the run, it has been resolved once: well if and only if every
operation was called and has ended well; with its earliest failure if every operation was called or
skipped and one has failed; and as unavailable if one was neither called nor skipped. -/
theorem Reachable.abandonment (h : Reachable b s) (hr : s.Schedules r region) :
    (∀ i j pre post, i < j → region.graph.conflicts i j →
      s.log = pre ++ .launched ⟨r, j⟩ :: post → .ended ⟨r, i⟩ (.ok ()) ∈ pre) ∧
    (s.IsSpent r → ∃ o, s.endings r = [o] ∧ .resolved r o ∈ s.log ∧
      (r.scope = [] → s.world.outcome? r.host r.execution = some o) ∧
      (o = .ok () ↔ ∀ j < region.ops.length,
        .launched ⟨r, j⟩ ∈ s.log ∧ .ended ⟨r, j⟩ (.ok ()) ∈ s.log) ∧
      ((∀ j < region.ops.length, .launched ⟨r, j⟩ ∈ s.log ∨ .skipped ⟨r, j⟩ ∈ s.log) →
        ∀ i e, .ended ⟨r, i⟩ (.error e) ∈ s.log → (∀ k < i, ¬ s.HasFailed ⟨r, k⟩) →
          o = .error (e.attributedTo (infoAt region i))) ∧
      ((∃ j < region.ops.length, .launched ⟨r, j⟩ ∉ s.log ∧ .skipped ⟨r, j⟩ ∉ s.log) →
        o = .error .promiseDropped ∧ Error.promiseDropped.kind = .unavailable)) := by
  refine ⟨fun i j pre post hij hc hlog => h.ended_before_launched hr.begun hij hc hlog,
    fun hs => ?_⟩
  obtain ⟨st, t, holders, fin, hv⟩ := hr.scheduled (h.sound.run r)
  obtain ⟨o, rfl, hresolved⟩ := hs.resolved h hv
  have hcomplete : t.isComplete = true ↔ ∀ j < region.ops.length, (st j).isDone := by
    rw [hv.tracks.isComplete_iff, Region.length_footprints]
  have hcomes : (∀ j < region.ops.length, (st j).isDone) → ComesTo region st o := fun hdone =>
    hv.comesTo fun j hj => by
      have hlt := hv.follows.lt_length (j := j) (by rw [hj]; rfl)
      have := hdone j hlt
      rw [hj] at this
      cases this
  have hlost : ¬ (∀ j < region.ops.length, (st j).isDone) → o = .error .promiseDropped :=
    fun hnot => by rw [hv.outcome o rfl, if_neg (mt hcomplete.1 hnot)]
  refine ⟨o, (h.sound.run r).endings_eq hresolved, hresolved,
    fun hscope => h.outcome hscope hresolved, ⟨fun ho j hj => ?_, fun hall => ?_⟩,
    fun hall i e hi hmin => ?_, fun ⟨j, hj, hnot⟩ => ⟨hlost fun hdone => ?_, rfl⟩⟩
  · have hdone : ∀ j < region.ops.length, (st j).isDone := by
      by_contra hnot
      rw [hlost hnot] at ho
      cases ho
    have hended := ComesTo.eq_ended (ho ▸ hcomes hdone) hj
    exact ⟨(launched_mem_iff hv j).2 ⟨_, hended⟩, (ended_mem_iff hv j _).2 hended⟩
  · refine (hcomes fun j hj => (isDone_iff_called hv j).2 (.inl (hall j hj).1)).good
      fun j e hj => ?_
    have hlt := hv.follows.lt_length (j := j) (by rw [hj]; rfl)
    rw [(ended_mem_iff hv j _).1 (hall j hlt).2] at hj
    cases hj
  · exact (hcomes fun j hj => (isDone_iff_called hv j).2 (hall j hj)).first i e
      ((ended_mem_iff hv i _).1 hi) fun k hk e' hk' => hmin k hk ⟨e', (ended_mem_iff hv k _).2 hk'⟩
  · exact ((isDone_iff_called hv j).1 (hdone j hj)).elim hnot.1 hnot.2

def takeOldest (k : Nat) (s : Crew α σ ι) : Crew α σ ι :=
  match s.world.runners[k]?.bind Runner.next? with
  | some (t, rest) => { s with world := s.world.setRunner k rest }.spawn (World.tasks t)
  | none => s

def loseOldest (b : Backend α σ ι) (k : Nat) (s : Crew α σ ι) : Crew α σ ι :=
  match s.world.runners[k]?.bind Runner.next? with
  | some (t, rest) => lose b { s with world := s.world.setRunner k rest } t
  | none => s

omit [Leaf α] in
theorem gives_of_next? {q : Option (Runner (Task ι))} {t : Task ι} {rest : Runner (Task ι)}
    (h : q.bind Runner.next? = some (t, rest)) : ∃ q', q = some q' ∧ q'.Gives t rest := by
  obtain ⟨q', rfl, hq⟩ := Option.bind_eq_some_iff.1 h
  refine ⟨q', rfl, ?_⟩
  cases q' with
  | inline | lab => cases hq
  | pool p =>
    obtain ⟨⟨t', p'⟩, hp, heq⟩ := Option.map_eq_some_iff.1 hq
    obtain ⟨rfl, rfl⟩ := Prod.mk.inj heq
    unfold WorkerPool.take? at hp
    split at hp
    · cases hp
    · rename_i hqueue
      obtain ⟨rfl, rfl⟩ := Prod.mk.inj (Option.some.inj hp)
      exact ⟨by simp [Runner.queued, hqueue], rfl⟩

theorem Reachable.takeOldest (h : Reachable b s) (k : Nat) : Reachable b (s.takeOldest k) := by
  unfold Crew.takeOldest
  split
  case h_1 t rest ht =>
    obtain ⟨q, hk, hq⟩ := gives_of_next? ht
    exact h.move (.take hk hq)
  case h_2 => exact h

theorem Reachable.loseOldest (h : Reachable b s) (k : Nat) : Reachable b (s.loseOldest b k) := by
  unfold Crew.loseOldest
  split
  case h_1 t rest ht =>
    obtain ⟨q, hk, hq⟩ := gives_of_next? ht
    exact h.move (.drop hk hq)
  case h_2 => exact h

omit [Leaf α] in
theorem isSpent_of_empty (hthreads : s.threads.flatten.length = 0)
    (hkept : s.world.kept.length = 0)
    (hcalls : (s.world.execution? r.host r.execution).all fun x => x.calls.size == 0) :
    s.IsSpent r := by
  refine ⟨isQuiet_of_empty hthreads hkept hcalls, fun items hitems hmem => ?_⟩
  have hnil := List.flatten_eq_nil_iff.1 (List.length_eq_zero_iff.1 hthreads) items hitems
  rw [hnil] at hmem
  cases hmem

def bothQueued (ops : List (Operation Primitive)) : Crew Primitive Unit Unit :=
  (Crew.act (.ending fun _ => .ok ()) 0)^[4]
    (({ world := { alone ops with runners := #[.pool {}] } } : Crew _ _ _).execute 0)

theorem reachable_bothQueued (ops : List (Operation Primitive)) :
    Reachable (.ending fun _ => .ok ()) (bothQueued ops) :=
  ((Reachable.fresh ⟨rfl, by simp [alone], by simp [Runner.queued]⟩).execute 0).acts 0 4

/-- Two operations that touch nothing, of which the first is done and the second is lost. -/
def halfLost : Crew Primitive Unit Unit :=
  let b : Backend Primitive Unit Unit := .ending fun _ => .ok ()
  let ops := [.leaf { name := "a" } (.scripted .copy {} .succeed),
    .leaf { name := "b" } (.scripted .copy {} .succeed)]
  (Crew.act b 2)^[2] ((Crew.act b 1)^[8] (((bothQueued ops).takeOldest 0).loseOldest b 0))

theorem reachable_halfLost : Reachable (.ending fun _ => .ok ()) halfLost :=
  (((reachable_bothQueued _).takeOldest 0).loseOldest 0 |>.acts 1 8).acts 2 2

theorem begun_halfLost : 0 < halfLost.begun.length := by decide +kernel

theorem abandonment_halfLost : ∃ region, region.ops.length = 2 ∧
    halfLost.Schedules ⟨0, 0, []⟩ region ∧ halfLost.IsSpent ⟨0, 0, []⟩ ∧
    .ended ⟨⟨0, 0, []⟩, 0⟩ (.ok ()) ∈ halfLost.log ∧
    .launched ⟨⟨0, 0, []⟩, 1⟩ ∉ halfLost.log ∧ .skipped ⟨⟨0, 0, []⟩, 1⟩ ∉ halfLost.log ∧
    halfLost.world.outcome? 0 0 = some (.error .promiseDropped) := by
  have hr : halfLost.Schedules ⟨0, 0, []⟩ (halfLost.begun.get ⟨0, begun_halfLost⟩).2 :=
    schedules_of_first begun_halfLost (by decide +kernel) (by decide +kernel) (by decide +kernel)
  have hs : halfLost.IsSpent ⟨0, 0, []⟩ :=
    isSpent_of_empty (by decide +kernel) (by decide +kernel) (by decide +kernel)
  have hlaunched : .launched ⟨⟨0, 0, []⟩, 1⟩ ∉ halfLost.log := by decide +kernel
  have hskipped : .skipped ⟨⟨0, 0, []⟩, 1⟩ ∉ halfLost.log := by decide +kernel
  obtain ⟨o, -, -, hout, -, -, hlost⟩ := (reachable_halfLost.abandonment hr).2 hs
  obtain ⟨rfl, -⟩ := hlost ⟨1, by decide +kernel, hlaunched, hskipped⟩
  exact ⟨_, by decide +kernel, hr, hs, by decide +kernel, hlaunched, hskipped, hout rfl⟩

end Crew

end OpFlow.Machine
