import OpFlow.Proofs.Machine.SoundSteps

/-!
All runs of a crew are in order in every state that it can reach.
-/
namespace OpFlow.Machine

variable {α σ ι : Type}

namespace World

variable {w : World α σ ι} {k : Nat} {q q' : Runner (Task ι)} {t : Task ι}

/-- A runner gives a task that it has kept. -/
theorem kept_give (hk : w.runners[k]? = some q) (hq : q.Gives t q') :
    w.kept.Perm (t :: (w.setRunner k q').kept) := by
  obtain ⟨hlt, rfl⟩ := Array.getElem?_eq_some_iff.1 hk
  have hsplit := List.take_append_drop k w.runners.toList
  have hset : (w.setRunner k q').kept =
      (w.runners.toList.take k).flatMap Runner.queued ++ q'.queued ++
        (w.runners.toList.drop (k + 1)).flatMap Runner.queued := by
    simp [World.kept, World.setRunner, List.set_eq_take_append_cons_drop, hlt]
  have hold : w.kept = (w.runners.toList.take k).flatMap Runner.queued ++ w.runners[k].queued ++
      (w.runners.toList.drop (k + 1)).flatMap Runner.queued := by
    conv_lhs => rw [World.kept, ← hsplit, List.drop_eq_getElem_cons (by simpa using hlt)]
    simp
  rw [hset, hold]
  simp only [List.append_assoc]
  refine (List.Perm.append_left _ (hq.1.append_right _)).trans ?_
  exact List.perm_middle

theorem IsFresh.execution?_eq_none {w : World α σ ι} (hw : w.IsFresh) (a e : Nat) :
    w.execution? a e = none := by
  simp only [World.execution?]
  cases ha : w.hosts[a]? with
  | none => rfl
  | some h =>
    have := hw.executions h (Array.mem_of_getElem? ha)
    simp [this]

end World

namespace Crew

/-- A new thread has come for tasks that were queued, in a world whose runs and calls are as
before. -/
structure Spawned (s s' : Crew α σ ι) (tasks : List (Task ι)) (agenda : List (Item α ι))
    (events : List Event) : Prop where
  threads : s'.threads = s.threads ++ [agenda]
  begun : s'.begun = s.begun
  run : s'.world.run? = s.world.run?
  call : s'.world.call? = s.world.call?
  runner : s'.world.runnerOf? = s.world.runnerOf?
  knows : ∀ r, s.world.Knows r → s'.world.Knows r
  count : ∀ x, s'.signs.count x + (tasks.filterMap Task.sign).count x =
    s.signs.count x + (threadSigns agenda ++ events.filterMap Event.sign).count x

variable [Leaf α] {s s' : Crew α σ ι} {tasks : List (Task ι)} {agenda : List (Item α ι)}
  {events : List Event} {r : RunKey}

namespace Spawned

omit [Leaf α] in
theorem moves (h : s.Spawned s' tasks agenda events) (r : RunKey) :
    (s.view r).Moves (s'.view r) (signsOf r (tasks.filterMap Task.sign))
      (signsOf r (threadSigns agenda ++ events.filterMap Event.sign)) where
  concurrent := by simp only [view, h.runner]
  regions := by simp only [view, h.begun]
  count := fun x => by
    simp only [count_signsOf, count_view]
    exact h.count (r, x)

omit [Leaf α] in
theorem covered (h : s.Spawned s' tasks agenda events) (hagenda : Covered r agenda)
    (hall : ∀ items ∈ s.threads, Covered r items) : ∀ items ∈ s'.threads, Covered r items := by
  intro items hitems
  rw [h.threads, List.mem_append, List.mem_singleton] at hitems
  rcases hitems with hitems | rfl
  · exact hall items hitems
  · exact hagenda

theorem other (h : s.Spawned s' tasks agenda events) (hs : s.RunSound r)
    (hout : signsOf r (tasks.filterMap Task.sign) = [])
    (hinn : signsOf r (threadSigns agenda ++ events.filterMap Event.sign) = []) :
    s'.RunSound r := by
  have hm := h.moves r
  rw [hout, hinn] at hm
  refine hs.frame (view_eq_of_moves hm (congrFun h.run r) fun node => by rw [h.call])
    (h.covered (covered_of_not_minds (not_minds_of_signsOf ?_)))
  rw [signsOf_append, List.append_eq_nil_iff] at hinn
  exact hinn.1

theorem sound (h : s.Spawned s' tasks agenda events) (hs : s.Sound) (hruns : ∀ r, s'.RunSound r)
    (hstarts : ∀ r region, .start r region ∈ agenda → r.scope = [] ∧ s'.world.Knows r)
    (hevents : ∀ r, .started r ∉ events) : s'.Sound := by
  have hbegun : ∀ r, s'.HasBegun r → s.HasBegun r ∨ ∃ region, .start r region ∈ agenda := by
    intro r hr
    have hmem : ∀ x, (r, x) ∈ s'.signs → (r, x) ∈ s.signs ∨
        (r, x) ∈ threadSigns agenda ++ events.filterMap Event.sign := fun x hx => by
      have hcount := h.count (r, x)
      rw [← List.count_pos_iff] at hx
      rw [← List.count_pos_iff, ← List.count_pos_iff]
      omega
    rcases hasBegun_iff.1 hr with hx | hx <;> rcases hmem _ hx with hx | hx
    · exact .inl (hasBegun_iff.2 (.inl hx))
    · rcases List.mem_append.1 hx with hx | hx
      · obtain ⟨item, hitem, hsign⟩ := List.mem_filterMap.1 hx
        obtain ⟨region, rfl⟩ := sign_start_iff.1 hsign
        exact .inr ⟨region, hitem⟩
      · obtain ⟨e, -, hsign⟩ := List.mem_filterMap.1 hx
        cases e <;> simp [Event.sign] at hsign
    · exact .inl (hasBegun_iff.2 (.inr hx))
    · rcases List.mem_append.1 hx with hx | hx
      · obtain ⟨item, -, hsign⟩ := List.mem_filterMap.1 hx
        cases item <;> simp [Item.sign] at hsign
      · obtain ⟨e, he, hsign⟩ := List.mem_filterMap.1 hx
        obtain rfl : e = .started r := by cases e <;> simp_all [Event.sign]
        exact absurd he (hevents r)
  refine ⟨hruns, fun r hr => ?_, fun c n hr => ?_⟩
  · rcases hbegun r hr with hr | ⟨region, hmem⟩
    · exact h.knows r (hs.known r hr)
    · exact (hstarts r region hmem).2
  · rcases hbegun _ hr with hr | ⟨region, hmem⟩
    · obtain ⟨hl, hn⟩ := hs.fresh c n hr
      rw [h.call]
      refine ⟨?_, hn⟩
      have hcount := h.count (c.run, .node c.node .launched)
      have hnone : (tasks.filterMap Task.sign).count (c.run, .node c.node .launched) = 0 := by
        rw [List.count_eq_zero, List.mem_filterMap]
        rintro ⟨t, -, hsign⟩
        cases t <;> simp [Task.sign] at hsign
      simp only [RunView.marks, count_view] at hl ⊢
      omega
    · have := (hstarts _ region hmem).1
      cases this

end Spawned

section Task

variable {k : Nat} {q q' : Runner (Task ι)} {t : Task ι}

omit [Leaf α] in
/-- A new thread for a task that a runner gives. -/
theorem spawned_of_give (s : Crew α σ ι) (hk : s.world.runners[k]? = some q) (hq : q.Gives t q')
    (device : σ) (agenda : List (Item α ι)) (events : List Event) :
    s.Spawned { ({ s with world := { s.world.setRunner k q' with device } } : Crew α σ ι).spawn agenda
      with log := s.log ++ events } [t] agenda events := by
  refine ⟨rfl, rfl, rfl, rfl, rfl, fun _ => id, fun x => ?_⟩
  have hkept := ((World.kept_give hk hq).filterMap Task.sign).count_eq x
  have hworld : ({ s.world.setRunner k q' with device } : World α σ ι).kept =
      (s.world.setRunner k q').kept := rfl
  have htask : ((t :: (s.world.setRunner k q').kept).filterMap Task.sign).count x =
      ([t].filterMap Task.sign).count x + ((s.world.setRunner k q').kept.filterMap Task.sign).count x := by
    rw [← List.count_append, ← List.filterMap_append]
    rfl
  rw [htask] at hkept
  simp only [signs, spawn, hworld, List.flatMap_append, List.flatMap_singleton, List.count_append,
    List.filterMap_append]
  omega

/-- The turn of a node leaves the queue: a new thread has it, or it is lost. -/
theorem Sound.unqueue (hs : s.Sound) {j : Nat} {x : NodeState} (hx : x = .due ∨ x = .dropped)
    (h : s.Spawned s' [.visit r j] agenda events) {inn : List Sign}
    (hinn : signsOf r (threadSigns agenda ++ events.filterMap Event.sign) = inn)
    (hlocal : ∀ y ∈ inn, y = .hold ∨ ∃ m, y = .node j m)
    (hdue : inn.count (.node j .turn) = x.isDue.toNat ∧ inn.count (.node j .queued) = 0)
    (hhold : inn.count .hold = 1)
    (hfixed : ∀ k, k.isFixed → inn.count (.node j k) = x.weight k)
    (howner : ∀ y ∈ threadSigns agenda ++ events.filterMap Event.sign, y.1 = r)
    (hcovered : Covered r agenda) (hstarts : ∀ r region, .start r region ∉ agenda)
    (hevents : ∀ r, .started r ∉ events) : s'.Sound := by
  have hm : (s.view r).Moves (s'.view r) [.node j .queued] inn :=
    (h.moves r).congr (by simp [Task.sign]) fun y => by rw [hinn]
  have hqueued : 0 < (s.view r).marks j .queued := by
    have := hm.count (.node j .queued)
    simp only [RunView.marks] at *
    simp [hdue.2] at this
    omega
  have hmain : s'.RunSound r := by
    cases hs.run r with
    | idle h => rw [RunView.marks, h.count _ (by simp)] at hqueued; cases hqueued
    | empty h => rw [RunView.marks, h.count _ (by simp) (by simp) (by simp)] at hqueued; cases hqueued
    | ordered h => rw [(h.marks_due j).2] at hqueued; cases hqueued
    | @scheduled region st t holders fin hv hc =>
      have hst : st j = .due := (hv.shown j).eq_due (by omega)
      obtain rfl := hv.fin_eq_none (j := j) (by simp [hst, NodeState.isStill])
      have hrun : (s'.view r).run = some ⟨region, .scheduled t holders⟩ :=
        (congrFun h.run r).trans hv.run_eq
      have hprogress : (s'.view r).progress = (s.view r).progress :=
        funext fun k => by simp only [view, h.call]
      refine .scheduled (hv.handOver hst hx hm ?_ ?_ ?_ hprogress hrun ?_)
        fun _ => h.covered hcovered (hc (.inl rfl))
      · intro y hy
        rcases List.mem_append.1 hy with hy | hy
        · exact .inr ⟨_, by simpa using hy⟩
        · exact hlocal y hy
      · simp [hdue]
        omega
      · intro k hk
        rw [hfixed k hk, count_queued_of_isFixed j hk, Nat.add_zero]
      · simp [hdue, hhold]
  refine h.sound hs (fun r' => ?_) (fun r region hmem => absurd hmem (hstarts r region)) hevents
  by_cases hr : r' = r
  · exact hr ▸ hmain
  · exact h.other (hs.run r') (signsOf_eq_nil (by simp [Task.sign]) hr) (signsOf_eq_nil howner hr)

theorem Sound.spawn_silent (hs : s.Sound) (h : s.Spawned s' tasks agenda [])
    (htasks : ∀ t ∈ tasks, t.sign = none) (hagenda : ∀ x ∈ agenda, x.sign = none) : s'.Sound := by
  have hout : tasks.filterMap Task.sign = [] := List.filterMap_eq_nil_iff.2 htasks
  have hinn : threadSigns agenda = [] := List.filterMap_eq_nil_iff.2 hagenda
  refine h.sound hs (fun r => h.other (hs.run r) (by simp [hout]) (by simp [hinn]))
    (fun r region hmem => ?_) (by simp)
  have := hagenda _ hmem
  cases this

theorem Sound.take (hs : s.Sound) (hk : s.world.runners[k]? = some q) (hq : q.Gives t q') :
    (({ s with world := s.world.setRunner k q' } : Crew α σ ι).spawn (World.tasks t)).Sound := by
  have h := spawned_of_give s hk hq s.world.device (World.tasks t) []
  rw [List.append_nil] at h
  cases t with
  | visit r j =>
    refine hs.unqueue (.inl rfl) h rfl ?_ ?_ ?_ ?_ ?_ ?_ ?_ ?_
    all_goals simp [World.tasks, Item.sign, Covered, Item.minds, NodeState.isDue]
    intro k hk
    cases k <;> simp_all [Mark.isFixed]
  | work x => exact hs.spawn_silent h (by simp [Task.sign]) (by simp [World.tasks, Item.sign])

theorem Sound.drop (hs : s.Sound) (b : Backend α σ ι) (hk : s.world.runners[k]? = some q)
    (hq : q.Gives t q') : (lose b { s with world := s.world.setRunner k q' } t).Sound := by
  cases t with
  | visit r j =>
    have h := spawned_of_give s hk hq s.world.device [.release r] [.dropped ⟨r, j⟩]
    refine hs.unqueue (.inr rfl) h rfl ?_ ?_ ?_ ?_ ?_ ?_ ?_ ?_
    all_goals simp [Item.sign, Event.sign, Covered, Item.minds, NodeState.isDue]
    intro k hk
    cases k <;> simp_all [Mark.isFixed]
  | work x =>
    have h := spawned_of_give s hk hq (b.discard x s.world.device).1
      ((b.discard x s.world.device).2.map .effect) []
    rw [List.append_nil] at h
    exact hs.spawn_silent h (by simp [Task.sign]) (by simp [Item.sign])

end Task

omit [Leaf α] in
theorem execution?_push (w : World α σ ι) (k : Nat) {h : Host α} (hk : w.hosts[k]? = some h)
    (a e : Nat) :
    (w.modifyHost k fun h => { h with executions := h.executions.push {} }).execution? a e =
      if a = k ∧ e = h.executions.size then some {} else w.execution? a e := by
  simp only [World.execution?, World.modifyHost, Array.getElem?_modify]
  by_cases ha : k = a
  · subst ha
    simp only [if_true, hk, Option.map_some, Option.bind_some, true_and, Array.getElem?_push]
  · simp [ha, Ne.symm ha]

omit [Leaf α] in
theorem spawned_of_execute (s : Crew α σ ι) {k : Nat} {h : Host α} (hk : s.world.hosts[k]? = some h) :
    s.Spawned (({ s with world := s.world.modifyHost k fun h =>
      { h with executions := h.executions.push {} } } : Crew α σ ι).spawn
        [.start ⟨k, h.executions.size, []⟩ h.program]) []
      [.start ⟨k, h.executions.size, []⟩ h.program] [] := by
  have hnone : s.world.execution? k h.executions.size = none := by
    simp [World.execution?, hk]
  have hpush := execution?_push s.world k hk
  refine ⟨rfl, rfl, funext fun r => ?_, funext fun c => ?_, funext fun a => ?_, fun r hr => ?_,
    fun x => ?_⟩
  · simp only [World.run?, spawn, hpush]
    split
    case isTrue heq => rw [heq.1, heq.2, hnone]; rfl
    case isFalse => rfl
  · simp only [World.call?, spawn, hpush]
    split
    case isTrue heq => rw [heq.1, heq.2, hnone]; rfl
    case isFalse => rfl
  · exact World.runnerOf?_modifyHost s.world k
      (fun h => { h with executions := h.executions.push {} }) (fun _ => rfl) a
  · simp only [World.Knows, spawn, hpush]
    split
    case isTrue => rfl
    case isFalse => exact hr
  · rw [count_signs_spawn, List.filterMap_nil, List.filterMap_nil, List.append_nil,
      List.count_nil, Nat.add_zero]
    rfl

omit [Leaf α] in
theorem spawned_outside (s : Crew α σ ι) (change : σ → σ × List (Effect ι)) :
    s.Spawned (({ s with world := { s.world with device := (change s.world.device).1 } } :
      Crew α σ ι).spawn ((change s.world.device).2.map .effect)) []
      ((change s.world.device).2.map .effect) [] := by
  refine ⟨rfl, rfl, rfl, rfl, rfl, fun _ => id, fun x => ?_⟩
  rw [count_signs_spawn, List.filterMap_nil, List.filterMap_nil, List.append_nil,
    List.count_nil, Nat.add_zero]
  rfl

theorem Sound.execute (hs : s.Sound) {k : Nat} {h : Host α} (hk : s.world.hosts[k]? = some h) :
    (({ s with world := s.world.modifyHost k fun h =>
        { h with executions := h.executions.push {} } } : Crew α σ ι).spawn
      [.start ⟨k, h.executions.size, []⟩ h.program]).Sound := by
  have hnone : s.world.execution? k h.executions.size = none := by
    simp [World.execution?, hk]
  have hpush := execution?_push s.world k hk
  have hsp := spawned_of_execute s hk
  have hnew : ¬ s.HasBegun ⟨k, h.executions.size, []⟩ := fun hb => by
    have := hs.known _ hb
    simp [World.Knows, hnone] at this
  refine hsp.sound hs (fun r => ?_) (fun r region hmem => ?_) (by simp)
  · by_cases hr : r = ⟨k, h.executions.size, []⟩
    · subst hr
      have hm := hsp.moves ⟨k, h.executions.size, []⟩
      exact (hs.run _).starting hnew (hm.congr (by simp) (by simp [Item.sign]))
        (congrFun hsp.run _) fun node => by rw [hsp.call]
    · exact hsp.other (hs.run r) rfl (by simp [Item.sign, Ne.symm hr])
  · obtain ⟨rfl, rfl⟩ : r = ⟨k, h.executions.size, []⟩ ∧ region = h.program := by simpa using hmem
    refine ⟨rfl, ?_⟩
    simp [World.Knows, spawn, hpush]

/-- A thread does its first item. -/
theorem Sound.act (hs : s.Sound) (b : Backend α σ ι) {i : Nat} {item : Item α ι}
    {rest : List (Item α ι)} {w : World α σ ι} (hi : s.threads[i]? = some (item :: rest))
    (hw : (s.seenBy (item :: rest)).step? b = some w) : (s.after i item w).Sound := by
  cases item <;> obtain rfl := Option.some.inj hw
  case start => exact hs.act_start hi
  case visit => exact hs.act_visit hi
  case submit => exact hs.act_submit hi
  case release => exact hs.act_release hi
  case call => exact hs.act_call b hi
  case returned => exact hs.act_returned hi
  case settle => exact hs.act_settle hi (.inl rfl)
  case settleRun => exact hs.act_settleRun b hi
  case iterate => exact hs.act_iterate hi
  case iterated => exact hs.act_iterated b hi
  case effect => exact hs.act_effect b hi

theorem Sound.move (hs : s.Sound) {b : Backend α σ ι} {c : Choice σ ι} (hm : Move b c s s') :
    s'.Sound := by
  cases hm with
  | act hi hw => exact hs.act b hi hw
  | take hk hr => exact hs.take hk hr
  | drop hk hr => exact hs.drop b hk hr
  | outside change => exact hs.spawn_silent (spawned_outside s change) (by simp) (by simp [Item.sign])
  | execute hk => exact hs.execute hk

/-- Before anything has been executed, no run has begun. -/
theorem sound_fresh {w : World α σ ι} (hw : w.IsFresh) : Sound ({ world := w } : Crew α σ ι) := by
  have hexecution := hw.execution?_eq_none
  have hkept : w.kept = [] := by
    rw [World.kept, List.flatMap_eq_nil_iff]
    exact fun q hq => hw.queued q (by simpa using hq)
  have hsigns : ({ world := w } : Crew α σ ι).signs = [] := by
    simp [signs, hkept]
  have hcount : ∀ r x, (({ world := w } : Crew α σ ι).view r).count x = 0 := fun r x => by
    rw [count_view, hsigns]
    rfl
  refine ⟨fun r => .idle ⟨rfl, ?_, fun j => ?_, by simp [hcount], fun y _ => hcount r y⟩,
    fun r hr => ?_, fun c n hr => ?_⟩
  · simp [view, World.run?, hexecution]
  · simp [view, World.call?, hexecution]
  · simp [HasBegun, hcount] at hr
  · simp [HasBegun, hcount] at hr

theorem Reachable.sound {b : Backend α σ ι} (h : Reachable b s) : s.Sound := by
  induction h with
  | fresh hw => exact sound_fresh hw
  | move _ hm ih => exact ih.move hm

end Crew

end OpFlow.Machine
