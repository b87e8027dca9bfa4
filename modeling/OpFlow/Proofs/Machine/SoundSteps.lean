import OpFlow.Proofs.Machine.Sound

/-!
Every move keeps all runs of a crew in order.
-/
namespace OpFlow.Machine

variable {α σ ι : Type}

theorem RunView.Moves.congr {V V' : RunView α} {out inn out' inn' : List Sign}
    (h : V.Moves V' out inn) (hout : ∀ x, out.count x = out'.count x)
    (hinn : ∀ x, inn.count x = inn'.count x) : V.Moves V' out' inn' :=
  ⟨h.concurrent, h.regions, fun x => by rw [← hout, ← hinn]; exact h.count x⟩

/-- The signs of what follows the completion of a node. -/
theorem count_signsOf_onward (r : RunKey) (t : Schedule) (ready : List Nat) (atOnce : Bool)
    (x : Sign) :
    (signsOf r (threadSigns (World.onward r t ready atOnce : List (Item α ι)))).count x =
      ((if atOnce then [] else [Sign.hold]) ++ RunView.Scheduled.completion t ready).count x := by
  have hproceed : (signsOf r (threadSigns (World.proceed r atOnce ready : List (Item α ι)))).count x =
      ((if atOnce then [] else [Sign.hold]) ++ ready.map fun k => Sign.node k .turn).count x := by
    cases atOnce with
    | false => simp [World.proceed, Item.sign, List.count_cons]
    | true => cases ready <;> simp [World.proceed, Item.sign, List.count_cons]
  have hover : signsOf r (threadSigns (if t.isComplete then [.settleRun r t.outcome]
      else ([] : List (Item α ι)))) = if t.isComplete then [.closing t.outcome] else [] := by
    split <;> simp [Item.sign]
  rw [World.onward, threadSigns_append, signsOf_append, List.count_append, hproceed, hover,
    RunView.Scheduled.completion]
  simp only [List.count_append]
  omega

/-- All that follows the completion of a node is of the same run. -/
theorem mem_onward {r : RunKey} {t : Schedule} {ready : List Nat} {atOnce : Bool}
    {item : Item α ι} (hmem : item ∈ World.onward r t ready atOnce) :
    (∃ o, item = .settleRun r o) ∨ (∃ k, item = .submit r k) ∨ (∃ k, item = .visit r k) ∨
      item = .release r := by
  simp only [World.onward, List.mem_append] at hmem
  rcases hmem with hmem | hmem
  · split at hmem <;> simp_all
  · cases atOnce with
    | false =>
      simp only [World.proceed, List.mem_append, List.mem_map, List.mem_singleton] at hmem
      rcases hmem with ⟨k, -, rfl⟩ | rfl <;> simp
    | true =>
      cases ready with
      | nil => cases hmem
      | cons first others =>
        simp only [World.proceed, List.mem_append, List.mem_map, List.mem_singleton] at hmem
        rcases hmem with ⟨k, -, rfl⟩ | rfl <;> simp

theorem run_of_mem_onward {r : RunKey} {t : Schedule} {ready : List Nat} {atOnce : Bool}
    {y : RunKey × Sign} (h : y ∈ threadSigns (World.onward r t ready atOnce : List (Item α ι))) :
    y.1 = r := by
  obtain ⟨item, hmem, hsign⟩ := List.mem_filterMap.1 h
  rcases mem_onward hmem with ⟨o, rfl⟩ | ⟨k, rfl⟩ | ⟨k, rfl⟩ | rfl <;>
    simp only [Item.sign, Option.some.injEq] at hsign <;> rw [← hsign]

theorem not_mem_onward {r r' : RunKey} {region : Program α} {t : Schedule} {ready : List Nat}
    {atOnce : Bool} : .start r' region ∉ (World.onward r t ready atOnce : List (Item α ι)) :=
  fun hmem => by rcases mem_onward hmem with ⟨o, h⟩ | ⟨k, h⟩ | ⟨k, h⟩ | h <;> cases h

namespace Crew

variable [Leaf α] {s : Crew α σ ι} {r : RunKey} {i : Nat} {item : Item α ι}
  {rest items : List (Item α ι)} {tasks : List (Task ι)} {w : World α σ ι}
  {run : RunKey → Option (Run α)} {call : CallKey → Option Call}

theorem RunSound.not_idle (hs : s.RunSound r) (hi : s.threads[i]? = some (item :: rest)) {j : Nat}
    {m : Mark} (hitem : item.sign = some (r, .node j m)) :
    (∃ region st fin, (s.view r).Ordered region st fin) ∨
      ∃ region st t holders fin, (s.view r).Scheduled region st t holders fin ∧
        (fin = none ∨ t.isComplete → ∀ items ∈ s.threads, Covered r items) := by
  have hpos := count_pos_of_head hi hitem
  cases hs with
  | idle h => rw [h.count _ (by simp)] at hpos; cases hpos
  | empty h => rw [h.count _ (by simp) (by simp) (by simp)] at hpos; cases hpos
  | ordered h => exact .inl ⟨_, _, _, h⟩
  | scheduled h hc => exact .inr ⟨_, _, _, _, _, h, hc⟩

omit [Leaf α] in
theorem sign_start_iff {x : Item α ι} : x.sign = some (r, .start) ↔ ∃ region, x = .start r region := by
  cases x <;> simp [Item.sign]

omit [Leaf α] in
theorem mem_noted_started {x : Item α ι} : Event.started r ∈ s.world.noted x ↔
    ∃ region, x = .start r region := by
  cases x with
  | start r' region => simp [World.noted, eq_comm]
  | effect e =>
    cases e <;> simp only [World.noted]
    case settle => split <;> simp
    all_goals simp
  | _ =>
    simp only [World.noted]
    repeat' split
    all_goals simp

omit [Leaf α] in
theorem hasBegun_iff : s.HasBegun r ↔ (r, Sign.start) ∈ s.signs ∨ (r, Sign.started) ∈ s.signs := by
  rw [HasBegun, count_view, count_view, ← List.count_pos_iff, ← List.count_pos_iff]
  omega

omit [Leaf α] in
theorem mem_signs_after (hi : s.threads[i]? = some (item :: rest))
    (h : (s.seenBy rest).Became w items tasks run call) {x : RunKey × Sign}
    (hx : x ∈ (s.after i item w).signs) :
    x ∈ s.signs ∨ x ∈ signsIn items tasks (s.world.noted item) := by
  have hcount := count_signs_after hi h x
  rw [← List.count_pos_iff] at hx
  simp only [← List.count_pos_iff]
  omega

omit [Leaf α] in
/-- A run begins only when its start is put on a thread. -/
theorem hasBegun_after (hi : s.threads[i]? = some (item :: rest))
    (h : (s.seenBy rest).Became w items tasks run call) (hr : (s.after i item w).HasBegun r) :
    s.HasBegun r ∨ ∃ region, .start r region ∈ items := by
  have hin : ∀ x, x = Sign.start ∨ x = Sign.started → (r, x) ∈ (s.after i item w).signs →
      s.HasBegun r ∨ ∃ region, .start r region ∈ items := fun x hx hmem => by
    rcases mem_signs_after hi h hmem with hmem | hmem
    · exact .inl (hasBegun_iff.2 (by rcases hx with rfl | rfl <;> simp [hmem]))
    · simp only [signsIn, threadSigns, List.mem_append, List.mem_filterMap] at hmem
      rcases hmem with (⟨y, hy, hsign⟩ | ⟨t, -, hsign⟩) | ⟨e, he, hsign⟩
      · rcases hx with rfl | rfl
        · obtain ⟨region, rfl⟩ := sign_start_iff.1 hsign
          exact .inr ⟨region, hy⟩
        · cases y <;> simp [Item.sign] at hsign
      · rcases hx with rfl | rfl <;> cases t <;> simp [Task.sign] at hsign
      · rcases hx with rfl | rfl
        · cases e <;> simp [Event.sign] at hsign
        · obtain rfl : e = .started r := by cases e <;> simp_all [Event.sign]
          obtain ⟨region, rfl⟩ := mem_noted_started.1 he
          exact .inl (hasBegun_iff.2 (.inl (List.count_pos_iff.1 (count_pos_of_head hi rfl))))
  rcases hasBegun_iff.1 hr with hmem | hmem
  · exact hin _ (.inl rfl) hmem
  · exact hin _ (.inr rfl) hmem

omit [Leaf α] in
theorem launched_after (hi : s.threads[i]? = some (item :: rest))
    (h : (s.seenBy rest).Became w items tasks run call) {j : Nat}
    (hl : 0 < (s.view r).marks j .launched) : 0 < ((s.after i item w).view r).marks j .launched := by
  have hcount := count_signs_after hi h (r, .node j .launched)
  have hnone : item.sign.toList.count (r, .node j .launched) = 0 := by
    cases item <;> simp [Item.sign]
  simp only [RunView.marks, count_view] at hl ⊢
  omega

/-- All is in order after a thread has done an item if all runs are, nested runs begin after their
call and with new numbers, and no loop takes back a number. -/
theorem Sound.after (hs : s.Sound) (hi : s.threads[i]? = some (item :: rest))
    (h : (s.seenBy rest).Became w items tasks run call)
    (hruns : ∀ r, (s.after i item w).RunSound r)
    (hstarts : ∀ r region, .start r region ∈ items → ∃ c n, r = c.nested n ∧
      s.world.Knows c.run ∧ 0 < ((s.after i item w).view c.run).marks c.node .launched ∧
        ∀ p l, call c = some ⟨p, some l⟩ → n < l.started)
    (hcalls : ∀ c p l, call c = some ⟨p, some l⟩ →
      (∃ p' l', s.world.call? c = some ⟨p', some l'⟩ ∧ l'.started ≤ l.started) ∨
        ∀ n, ¬ s.HasBegun (c.nested n)) : (s.after i item w).Sound := by
  have hknows : ∀ r, (s.after i item w).world.Knows r ↔ s.world.Knows r := h.knows
  have hcall : (s.after i item w).world.call? = call := h.call
  refine ⟨hruns, fun r hr => ?_, fun c n hr => ?_⟩
  · rw [hknows]
    rcases hasBegun_after hi h hr with hr | ⟨region, hmem⟩
    · exact hs.known r hr
    · obtain ⟨c, n, rfl, hk, -⟩ := hstarts r region hmem
      exact hk
  · rw [hcall]
    rcases hasBegun_after hi h hr with hr | ⟨region, hmem⟩
    · obtain ⟨hl, hn⟩ := hs.fresh c n hr
      refine ⟨launched_after hi h hl, fun p l hc => ?_⟩
      rcases hcalls c p l hc with ⟨p', l', hc', hle⟩ | hnone
      · exact Nat.lt_of_lt_of_le (hn p' l' hc') hle
      · exact absurd hr (hnone n)
    · obtain ⟨c', n', heq, -, hl, hn⟩ := hstarts _ region hmem
      obtain ⟨rfl, rfl⟩ : c = c' ∧ n = n' := by
        obtain ⟨⟨_, _, _⟩, _⟩ := c
        obtain ⟨⟨_, _, _⟩, _⟩ := c'
        simp_all [CallKey.nested]
      exact ⟨hl, hn⟩

theorem Sound.after_quiet (hs : s.Sound) (hi : s.threads[i]? = some (item :: rest))
    (h : (s.seenBy rest).Became w items tasks run s.world.call?)
    (hruns : ∀ r, (s.after i item w).RunSound r)
    (hstarts : ∀ r region, .start r region ∉ items) : (s.after i item w).Sound :=
  hs.after hi h hruns (fun r region hmem => absurd hmem (hstarts r region))
    fun _ p l hc => .inl ⟨p, l, hc, Nat.le_refl _⟩

theorem Sound.after_update (hs : s.Sound) (hi : s.threads[i]? = some (item :: rest)) {c : CallKey}
    {y : Option Call}
    (h : (s.seenBy rest).Became w items tasks run (Function.update s.world.call? c y))
    (hruns : ∀ r, (s.after i item w).RunSound r)
    (hstarts : ∀ r region, .start r region ∉ items)
    (hy : ∀ p l, y = some ⟨p, some l⟩ →
      ∃ p' l', s.world.call? c = some ⟨p', some l'⟩ ∧ l'.started ≤ l.started) :
    (s.after i item w).Sound := by
  refine hs.after hi h hruns (fun r region hmem => absurd hmem (hstarts r region))
    fun c' p l hc => ?_
  rw [Function.update_apply] at hc
  split at hc
  case isTrue heq => exact .inl (heq ▸ hy p l hc)
  case isFalse => exact .inl ⟨p, l, hc, Nat.le_refl _⟩

/-- The start of a run that has not begun is put on a thread. -/
theorem RunSound.starting (hs : s.RunSound r) (hr : ¬ s.HasBegun r)
    {s' : Crew α σ ι} (hm : (s.view r).Moves (s'.view r) [] [.start])
    (hrun : s'.world.run? r = s.world.run? r)
    (hcall : ∀ node, (s'.world.call? ⟨r, node⟩).map Call.progress =
      (s.world.call? ⟨r, node⟩).map Call.progress) : s'.RunSound r := by
  have hr' : ¬ 0 < (s.view r).count .start + (s.view r).count .started := hr
  cases hs with
  | idle h =>
    have hstart := hm.count .start
    refine .idle ⟨hm.regions.trans h.regions, hrun.trans h.run,
      fun j => (hcall j).trans (h.progress j), ?_, fun y hy => ?_⟩
    · simp at hstart
      omega
    · rw [hm.eq_of_not_mem (by simp) (by simp [hy]), h.count y hy]
  | empty h => exact absurd (by rw [h.started]; omega) hr'
  | ordered h => exact absurd (by rw [h.started]; omega) hr'
  | scheduled h => exact absurd (by rw [h.started]; omega) hr'

/-- All runs are in order after a thread has done an item about run `r`, if that one is. Other runs
may be about to begin. -/
theorem Sound.runs_after (hs : s.Sound) (hi : s.threads[i]? = some (item :: rest))
    (h : (s.seenBy rest).Became w items tasks run call)
    (howner : ∀ r', item.owner = some r' → r' = r)
    (hitems : ∀ r', r' ≠ r → signsOf r' (threadSigns items) = [] ∨
      signsOf r' (threadSigns items) = [.start] ∧ ¬ s.HasBegun r')
    (htasks : ∀ y ∈ tasks.filterMap Task.sign, y.1 = r)
    (hrun : ∀ r', r' ≠ r → run r' = s.world.run? r')
    (hcall : ∀ c, c.run ≠ r → (call c).map Call.progress = (s.world.call? c).map Call.progress)
    (hmain : (s.after i item w).RunSound r) (r' : RunKey) : (s.after i item w).RunSound r' := by
  by_cases hr : r' = r
  · exact hr ▸ hmain
  have hbegins : ∀ x ∈ item.begins, x.1 ≠ r' := fun x hx h =>
    hr (h.symm.trans (howner _ (owner_of_begins hx)))
  have hout : signsOf r' item.sign.toList = [] :=
    signsOf_eq_nil (fun y hy => howner _ (owner_of_sign hy)) hr
  have hnoted : signsOf r' ((s.world.noted item).filterMap Event.sign) = [] :=
    signsOf_eq_nil (fun y hy => howner _ (owner_of_noted hy)) hr
  have hinn : signsOf r' (signsIn items tasks (s.world.noted item)) =
      signsOf r' (threadSigns items) := by
    simp [signsIn, hnoted, signsOf_eq_nil htasks hr]
  rcases hitems r' hr with hnone | ⟨hstart, hnot⟩
  · exact (hs.run r').other hi h hbegins hout (hinn.trans hnone) (hrun r' hr) fun node => hcall _ hr
  · have hm := moves_after hi h hbegins
    rw [hout, hinn, hstart] at hm
    exact (hs.run r').starting hnot hm ((run_view_after h r').trans (hrun r' hr))
      fun node => (progress_view_after h r' node).trans (hcall _ hr)

theorem Sound.runs_after_own (hs : s.Sound) (hi : s.threads[i]? = some (item :: rest))
    (h : (s.seenBy rest).Became w items tasks run call)
    (howner : ∀ r', item.owner = some r' → r' = r)
    (hitems : ∀ y ∈ threadSigns items, y.1 = r)
    (htasks : ∀ y ∈ tasks.filterMap Task.sign, y.1 = r)
    (hrun : ∀ r', r' ≠ r → run r' = s.world.run? r')
    (hcall : ∀ c, c.run ≠ r → (call c).map Call.progress = (s.world.call? c).map Call.progress)
    (hmain : (s.after i item w).RunSound r) (r' : RunKey) : (s.after i item w).RunSound r' :=
  hs.runs_after hi h howner (fun _ hr => .inl (signsOf_eq_nil hitems hr)) htasks hrun hcall hmain r'

theorem Sound.act_visit (hs : s.Sound) {j : Nat} (hi : s.threads[i]? = some (.visit r j :: rest)) :
    (s.after i (.visit r j) ((s.seenBy rest).visit r j)).Sound := by
  have hturn : 0 < (s.view r).marks j .turn := count_pos_of_head hi rfl
  rcases (hs.run r).not_idle hi rfl with ⟨region, st, fin, h⟩ | ⟨region, st, t, holders, fin, h, hc⟩
  · have := (h.marks_due j).1
    omega
  have hst : st j = .due := (h.shown j).eq_due (by omega)
  obtain rfl := h.fin_eq_none (j := j) (by simp [hst, NodeState.isStill])
  have hrun : s.world.run? r = some ⟨region, .scheduled t holders⟩ := h.run_eq
  cases hp : t.isPoisoned j with
  | true =>
    obtain ⟨t', ready, ht⟩ : ∃ t' ready, t.skip.complete j true = (t', ready) := ⟨_, _, rfl⟩
    have hb := World.visit_poisoned (w := s.seenBy rest) hrun hp ht
    have hnoted : s.world.noted (.visit r j) = [.skipped ⟨r, j⟩] := by simp [World.noted, hrun, hp]
    have hm : (s.view r).Moves ((s.after i (.visit r j) ((s.seenBy rest).visit r j)).view r)
        [.node j .turn] ([.node j .skipped] ++ RunView.Scheduled.completion t' ready) :=
      (moves_after hi hb (by simp [Item.begins])).congr (by simp [Item.sign]) fun x => by
        simp [signsIn, hnoted, Event.sign, count_signsOf_onward, List.count_cons]
    have hmain := h.skip (j := j) hturn (funext fun k => progress_view_after hb r k) hp
      (by rw [ht]; exact hm) (by rw [ht, run_view_after hb, Function.update_self])
    rw [ht] at hmain
    obtain ⟨st', h'⟩ := hmain
    exact hs.after_quiet hi hb (hs.runs_after_own hi hb (by simp [Item.owner])
      (fun y hy => run_of_mem_onward hy) (by simp) (fun r' hr => Function.update_of_ne hr _ _)
      (fun _ _ => rfl) (.scheduled h' fun _ => covered_of_minds hi hb rfl (hc (.inl rfl))))
      fun _ _ => not_mem_onward
  | false =>
    have hb := World.visit_enter (w := s.seenBy rest) hrun hp (h.conflict?_eq_none hst)
    have hnoted : s.world.noted (.visit r j) = [] := by simp [World.noted, hrun, hp]
    have hm : (s.view r).Moves ((s.after i (.visit r j) ((s.seenBy rest).visit r j)).view r)
        [.node j .turn] [.node j .call] :=
      (moves_after hi hb (by simp [Item.begins])).congr (by simp [Item.sign]) fun x => by
        simp [signsIn, hnoted, Item.sign]
    have h' := h.enter hm hturn (funext fun k => progress_view_after hb r k) hp
      (by rw [run_view_after hb, Function.update_self])
    exact hs.after_quiet hi hb (hs.runs_after_own hi hb (by simp [Item.owner])
      (by simp [Item.sign]) (by simp) (fun r' hr => Function.update_of_ne hr _ _)
      (fun _ _ => rfl) (.scheduled h' fun _ => covered_of_minds hi hb rfl (hc (.inl rfl))))
      (by simp)

theorem Sound.act_submit (hs : s.Sound) {j : Nat} (hi : s.threads[i]? = some (.submit r j :: rest)) :
    (s.after i (.submit r j) ((s.seenBy rest).submit r j)).Sound := by
  have hturn : 0 < (s.view r).marks j .turn := count_pos_of_head hi rfl
  rcases (hs.run r).not_idle hi rfl with ⟨region, st, fin, h⟩ | ⟨region, st, t, holders, fin, h, hc⟩
  · have := (h.marks_due j).1
    omega
  have hst : st j = .due := (h.shown j).eq_due (by omega)
  obtain rfl := h.fin_eq_none (j := j) (by simp [hst, NodeState.isStill])
  have hrun : s.world.run? r = some ⟨region, .scheduled t holders⟩ := h.run_eq
  rcases World.submit_cases (w := s.seenBy rest) j hrun with
    ⟨items, tasks, hb, hcases, hnoted⟩ | ⟨hb, hnoted⟩
  · have hnoted' : s.world.noted (.submit r j) = [] := hnoted
    obtain ⟨inn, hinn, hlocal, hcount⟩ : ∃ inn,
        (∀ x, (signsOf r (signsIn items tasks (s.world.noted (.submit r j)))).count x =
          inn.count x) ∧ (inn = [.node j .turn, .hold] ∨ inn = [.node j .queued]) ∧
        (∀ y ∈ threadSigns items, y.1 = r) ∧ (∀ y ∈ tasks.filterMap Task.sign, y.1 = r) ∧
          ∀ r' region, .start r' region ∉ items := by
      rcases hcases with ⟨rfl, rfl⟩ | ⟨rfl, rfl⟩
      · exact ⟨_, fun x => by simp [signsIn, hnoted', Item.sign], .inl rfl, by simp [Item.sign],
          by simp, by simp⟩
      · exact ⟨_, fun x => by simp [signsIn, hnoted', Task.sign], .inr rfl, by simp,
          by simp [Task.sign], by simp⟩
    have hm : (s.view r).Moves ((s.after i (.submit r j) ((s.seenBy rest).submit r j)).view r)
        [.node j .turn] inn :=
      (moves_after hi hb (by simp [Item.begins])).congr (by simp [Item.sign]) hinn
    have h' := h.handOver hst (.inl rfl) hm (by rcases hlocal with rfl | rfl <;> simp)
      (by rcases hlocal with rfl | rfl <;> simp [NodeState.isDue])
      (fun k hk => by
        rw [NodeState.weight_due, Nat.zero_add]
        rcases hlocal with rfl | rfl
        · simp [List.count_cons]
        · rw [count_queued_of_isFixed j hk, count_turn_of_isFixed j hk])
      (funext fun k => progress_view_after hb r k) (by rw [run_view_after hb, Function.update_self])
      (by rcases hlocal with rfl | rfl <;> simp)
    exact hs.after_quiet hi hb (hs.runs_after_own hi hb (by simp [Item.owner]) hcount.1 hcount.2.1
      (fun r' hr => Function.update_of_ne hr _ _) (fun _ _ => rfl)
      (.scheduled h' fun _ => covered_of_minds hi hb rfl (hc (.inl rfl)))) hcount.2.2
  · have hnoted' : s.world.noted (.submit r j) = [.dropped ⟨r, j⟩] := hnoted
    have hm : (s.view r).Moves ((s.after i (.submit r j) ((s.seenBy rest).submit r j)).view r)
        [.node j .turn] [.hold, .node j .dropped] :=
      (moves_after hi hb (by simp [Item.begins])).congr (by simp [Item.sign]) fun x => by
        simp [signsIn, hnoted', Item.sign, Event.sign]
    have h' := h.handOver hst (.inr rfl) hm (by simp) (by simp [NodeState.isDue])
      (fun _ => NodeState.weight_of_dropped j)
      (funext fun k => progress_view_after hb r k) (by rw [run_view_after hb, Function.update_self])
      (by simp)
    exact hs.after_quiet hi hb (hs.runs_after_own hi hb (by simp [Item.owner]) (by simp [Item.sign])
      (by simp) (fun r' hr => Function.update_of_ne hr _ _) (fun _ _ => rfl)
      (.scheduled h' fun _ => covered_of_minds hi hb rfl (hc (.inl rfl)))) (by simp)

omit [Leaf α] in
/-- A thread that lets go of a run as the only one that holds it is the only one with anything to do
for it, and has nothing left to do for it. -/
theorem not_minds_of_release (hi : s.threads[i]? = some (.release r :: rest))
    (hc : ∀ items ∈ s.threads, Covered r items) (hhold : (s.view r).count .hold ≤ 1)
    {items : List (Item α ι)} (hitems : items ∈ s.threads) {item : Item α ι} (hmem : item ∈ items) :
    ¬ item.minds r := by
  intro hminds
  have hnone : (r, Sign.hold) ∉ (s.threads.set i rest).flatMap threadSigns := by
    have hset := count_flatMap_set threadSigns hi rest (r, Sign.hold)
    rw [count_view, signs, List.count_append, List.count_append] at hhold
    rw [← List.count_eq_zero]
    simp [Item.sign] at hset
    omega
  have hrest : ∀ items ∈ s.threads.set i rest, .release r ∉ items := fun items hin hrel =>
    hnone (List.mem_flatMap.2 ⟨items, hin, List.mem_filterMap.2 ⟨_, hrel, rfl⟩⟩)
  obtain ⟨k, hk⟩ := List.mem_iff_getElem?.1 hitems
  by_cases hki : i = k
  · obtain rfl : .release r :: rest = items := by
      rw [← hki, hi] at hk
      exact Option.some.inj hk
    have hin : item ∈ rest := by
      rcases List.mem_cons.1 hmem with rfl | hin
      · cases hminds
      · exact hin
    refine hrest rest ?_ ((hc _ hitems).2.release_mem hin hminds)
    exact List.mem_set (by have := List.getElem?_eq_some_iff.1 hi; exact this.1) rest
  · refine hrest items ?_ ((hc _ hitems).release_mem hmem hminds)
    exact List.mem_iff_getElem?.2 ⟨k, by rw [List.getElem?_set_ne hki, hk]⟩

omit [Leaf α] in
theorem count_eq_zero_of_not_minds (h : ∀ items ∈ s.threads, ∀ item ∈ items, ¬ item.minds r)
    {x : Sign} (hx : x.isToDo) : (s.view r).count x = 0 := by
  rw [count_view, List.count_eq_zero, signs]
  simp only [List.mem_append, List.mem_flatMap, threadSigns, List.mem_filterMap, not_or, not_exists,
    not_and]
  exact ⟨⟨fun items hitems item hmem hsign => h items hitems item hmem (Item.minds_of_sign hsign hx),
    fun t _ => Task.sign_ne hx⟩, fun e _ => Event.sign_ne hx⟩

section Release

variable {region : Program α} {st : Nat → NodeState} {t : Schedule} {holders : Nat}
  {fin : Option Outcome}

/-- A holder lets go of a run that is gone. -/
theorem Sound.release_gone (hs : s.Sound) (hi : s.threads[i]? = some (.release r :: rest))
    (h : (s.view r).Scheduled region st t holders fin)
    (hall : ∀ items ∈ s.threads, Covered r items) (hrun : s.world.run? r = none) :
    (s.after i (.release r) ((s.seenBy rest).release r)).Sound := by
  have hhold : 0 < (s.view r).count .hold := count_pos_of_head hi rfl
  have hb : (s.seenBy rest).Became ((s.seenBy rest).release r) [] [] s.world.run?
      s.world.call? := by
    rw [World.release_gone (w := s.seenBy rest) hrun]
    exact World.Became.refl _
  have hm : (s.view r).Moves ((s.after i (.release r) ((s.seenBy rest).release r)).view r)
      [.hold] [] :=
    (moves_after hi hb (by simp [Item.begins])).congr (by simp [Item.sign])
      (by simp [signsIn, World.noted])
  have h' : ((s.after i (.release r) ((s.seenBy rest).release r)).view r).Scheduled region st t
      holders fin :=
    h.stay hm (by simp) hhold (funext fun k => progress_view_after hb r k)
      (fun x hx => by rw [show (s.view r).run = none from hrun] at hx; cases hx)
      fun _ => (run_view_after hb r).trans hrun
  refine hs.after_quiet hi hb (hs.runs_after_own hi hb (by simp [Item.owner]) (by simp) (by simp)
    (fun _ _ => rfl) (fun _ _ => rfl) (.scheduled h' fun _ => covered_after ?_ hall)) (by simp)
  rw [hb.agenda]
  exact (hall _ (mem_threads hi)).2

/-- One of several holders lets go. -/
theorem Sound.release_other (hs : s.Sound) (hi : s.threads[i]? = some (.release r :: rest))
    (h : (s.view r).Scheduled region st t holders fin)
    (hall : ∀ items ∈ s.threads, Covered r items)
    (hrun : s.world.run? r = some ⟨region, .scheduled t holders⟩) (hother : ¬ holders ≤ 1) :
    (s.after i (.release r) ((s.seenBy rest).release r)).Sound := by
  have hhold : 0 < (s.view r).count .hold := count_pos_of_head hi rfl
  have hb := World.release_other (w := s.seenBy rest) hrun hother
  have hm : (s.view r).Moves ((s.after i (.release r) ((s.seenBy rest).release r)).view r)
      [.hold] [] :=
    (moves_after hi hb (by simp [Item.begins])).congr (by simp [Item.sign])
      (by simp [signsIn, World.noted])
  have h' : ((s.after i (.release r) ((s.seenBy rest).release r)).view r).Scheduled region st t
      (holders - 1) fin :=
    h.stay hm (by simp) hhold (funext fun k => progress_view_after hb r k)
      (fun x hx => ⟨by rw [run_view_after hb, Function.update_self], by simp; omega⟩)
      fun hnone => by rw [show (s.view r).run = _ from hrun] at hnone; cases hnone
  refine hs.after_quiet hi hb (hs.runs_after_own hi hb (by simp [Item.owner]) (by simp) (by simp)
    (fun r' hr => Function.update_of_ne hr _ _) (fun _ _ => rfl)
    (.scheduled h' fun _ => covered_after ?_ hall)) (by simp)
  rw [hb.agenda]
  exact (hall _ (mem_threads hi)).2

/-- The last holder lets go, and the run will never end by itself. -/
theorem Sound.release_last (hs : s.Sound) (hi : s.threads[i]? = some (.release r :: rest))
    (h : (s.view r).Scheduled region st t holders fin) (hopen : fin = none ∨ t.isComplete)
    (hall : ∀ items ∈ s.threads, Covered r items)
    (hrun : s.world.run? r = some ⟨region, .scheduled t holders⟩) (hlast : holders ≤ 1) :
    (s.after i (.release r) ((s.seenBy rest).release r)).Sound := by
  have hhold : 0 < (s.view r).count .hold := count_pos_of_head hi rfl
  have hheld := h.held hopen (by rw [show (s.view r).run = _ from hrun]; rfl)
  have hone : (s.view r).count .hold ≤ 1 := by
    rw [RunView.held] at hheld
    omega
  have hquiet : ∀ items ∈ s.threads, ∀ item ∈ items, ¬ item.minds r := fun items hitems item hmem =>
    not_minds_of_release hi hall hone hitems hmem
  have hfin : fin = none := by
    cases hfin : fin with
    | none => rfl
    | some o =>
      have hover := h.closing o
      rw [if_pos hfin, (h.eq_of_run_eq hrun).2, count_eq_zero_of_not_minds hquiet rfl] at hover
      cases hover
  subst hfin
  have hb := World.release_last (w := s.seenBy rest) hrun hlast
  have hm : (s.view r).Moves ((s.after i (.release r) ((s.seenBy rest).release r)).view r)
      [.hold] [.closing (.error .promiseDropped)] :=
    (moves_after hi hb (by simp [Item.begins])).congr (by simp [Item.sign])
      (by simp [signsIn, World.noted, Item.sign])
  have h' := h.abandon hm hhold hlast (funext fun k => progress_view_after hb r k)
    (run_view_after hb r) (fun _ => count_eq_zero_of_not_minds hquiet rfl)
    (fun _ => count_eq_zero_of_not_minds hquiet rfl) fun _ => count_eq_zero_of_not_minds hquiet rfl
  exact hs.after_quiet hi hb (hs.runs_after_own hi hb (by simp [Item.owner])
    (by simp [Item.sign]) (by simp) (fun _ _ => rfl) (fun _ _ => rfl)
    (.scheduled h' fun hor => by simp [h.unfinished rfl] at hor)) (by simp)

theorem Sound.act_release (hs : s.Sound) (hi : s.threads[i]? = some (.release r :: rest)) :
    (s.after i (.release r) ((s.seenBy rest).release r)).Sound := by
  have hhold : 0 < (s.view r).count .hold := count_pos_of_head hi rfl
  obtain ⟨region, st, t, holders, fin, h, hc⟩ : ∃ region st t holders fin,
      (s.view r).Scheduled region st t holders fin ∧
        (fin = none ∨ t.isComplete → ∀ items ∈ s.threads, Covered r items) := by
    cases hs.run r with
    | idle h => rw [h.count _ (by simp)] at hhold; cases hhold
    | empty h => rw [h.count _ (by simp) (by simp) (by simp)] at hhold; cases hhold
    | ordered h => rw [h.hold] at hhold; cases hhold
    | scheduled h hc => exact ⟨_, _, _, _, _, h, hc⟩
  have hopen : fin = none ∨ t.isComplete := by
    cases hfin : fin with
    | none => exact .inl rfl
    | some o =>
      refine .inr ?_
      by_contra hinc
      rw [h.abandoned o hfin (by simpa using hinc)] at hhold
      cases hhold
  cases hrun : s.world.run? r with
  | none => exact hs.release_gone hi h (hc hopen) hrun
  | some x =>
    obtain rfl := (h.eq_of_run_eq hrun).1
    by_cases hlast : holders ≤ 1
    · exact hs.release_last hi h hopen (hc hopen) hrun hlast
    · exact hs.release_other hi h (hc hopen) hrun hlast

end Release

section Start

variable {region : Program α}

omit [Leaf α] in
/-- A run that begins shows what its start brings, and nothing else. -/
theorem count_view_start (hi : s.threads[i]? = some (.start r region :: rest))
    (hidle : (s.view r).Idle) (h : (s.seenBy rest).Became w items [] run call) (y : Sign) :
    ((s.after i (.start r region) w).view r).count y =
      (signsOf r (threadSigns items) ++ [Sign.started]).count y := by
  have hcount := count_signs_after hi h (r, y)
  have hpos : 0 < (s.view r).count .start := count_pos_of_head hi rfl
  have hle := hidle.start
  have hin : (signsIn items ([] : List (Task ι)) (s.world.noted (.start r region))).count (r, y) =
      (signsOf r (threadSigns items) ++ [Sign.started]).count y := by
    rw [← count_signsOf]
    simp [signsIn, World.noted, Event.sign]
  rw [hin] at hcount
  by_cases hy : y = .start
  · subst hy
    simp only [Item.sign, Option.toList, List.count_singleton_self] at hcount
    simp only [count_view] at *
    omega
  · have hzero := hidle.count y hy
    have hnone : (Item.start r region : Item α ι).sign.toList.count (r, y) = 0 := by
      simp [Item.sign, Ne.symm hy]
    simp only [count_view] at *
    omega

omit [Leaf α] in
theorem regions_view_start (hidle : (s.view r).Idle) :
    ((s.after i (.start r region) w).view r).regions = [region] := by
  have hnone : s.begun.filterMap (fun x => if x.1 = r then some x.2 else none) = [] := hidle.regions
  simp [view, after, Item.begins, hnone]

omit [Leaf α] in
theorem concurrent_view_after (h : (s.seenBy rest).Became w items tasks run call) (r : RunKey) :
    ((s.after i item w).view r).concurrent = (s.view r).concurrent :=
  congrArg Option.isSome (congrFun h.runner r.host)

omit [Leaf α] in
theorem not_minds_of_idle (hidle : (s.view r).Idle) {items : List (Item α ι)}
    (hitems : items ∈ s.threads) {item : Item α ι} (hmem : item ∈ items) : ¬ item.minds r := by
  intro hm
  obtain ⟨x, hx⟩ := Item.sign_of_minds hm
  have hne : x ≠ .start := fun h => by
    subst h
    obtain ⟨region, rfl⟩ := sign_start_iff.1 hx
    cases hm
  have hpos : 0 < (s.view r).count x := by
    rw [count_view, List.count_pos_iff, signs]
    exact List.mem_append_left _ (List.mem_append_left _ (List.mem_flatMap.2 ⟨_, hitems,
      List.mem_filterMap.2 ⟨_, hmem, hx⟩⟩))
  rw [hidle.count x hne] at hpos
  cases hpos

theorem Sound.idle_of_start (hs : s.Sound) (hi : s.threads[i]? = some (.start r region :: rest)) :
    (s.view r).Idle := by
  have hstart : 0 < (s.view r).count .start := count_pos_of_head hi rfl
  cases hs.run r with
  | idle h => exact h
  | empty h => rw [h.start] at hstart; cases hstart
  | ordered h => rw [h.start] at hstart; cases hstart
  | scheduled h => rw [h.start] at hstart; cases hstart

theorem Sound.act_start (hs : s.Sound) (hi : s.threads[i]? = some (.start r region :: rest)) :
    (s.after i (.start r region) ((s.seenBy rest).start r region)).Sound := by
  have hstart : 0 < (s.view r).count .start := count_pos_of_head hi rfl
  have hidle := hs.idle_of_start hi
  have hknows : s.world.Knows r := hs.known r (by unfold HasBegun; omega)
  by_cases hempty : region.ops = []
  · have hb := World.start_empty (w := s.seenBy rest) (r := r) hempty
    have hcount := count_view_start hi hidle hb
    refine hs.after_quiet hi hb (hs.runs_after_own hi hb (by simp [Item.owner]) (by simp [Item.sign])
      (by simp) (fun _ _ => rfl) (fun _ _ => rfl) (.empty
      ⟨regions_view_start hidle, hempty, (run_view_after hb r).trans hidle.run,
        fun k => (progress_view_after hb r k).trans (hidle.progress k), ?_, ?_, ?_, ?_⟩)) (by simp)
    · simp [hcount, Item.sign]
    · simp [hcount, Item.sign]
    · simp [hcount, Item.sign]
    · intro y h1 h2 h3
      simp [hcount, Item.sign, Ne.symm h1, Ne.symm h2]
  · by_cases hconcurrent : (s.world.runnerOf? r.host).isSome ∧ region.graph.isSequential = false
    · obtain ⟨hrunner, hunordered⟩ := hconcurrent
      have hb := World.start_scheduled (w := s.seenBy rest) hknows hempty hrunner hunordered
      have h' : ((s.after i (.start r region) ((s.seenBy rest).start r region)).view r).Scheduled
          region _ _ 1 none := .ofStart ((concurrent_view_after hb r).trans hrunner) hempty
        hunordered (regions_view_start hidle)
        (by rw [run_view_after hb, Function.update_self])
        (fun k => (progress_view_after hb r k).trans (hidle.progress k)) fun y => by
          rw [count_view_start hi hidle hb]
          simp [Item.sign, List.count_cons]
          omega
      refine hs.after_quiet hi hb (hs.runs_after_own hi hb (by simp [Item.owner]) ?_ (by simp)
        (fun r' hr => Function.update_of_ne hr _ _) (fun _ _ => rfl)
        (.scheduled h' fun _ => covered_after ?_ fun items hitems =>
          covered_of_not_minds fun item hmem => not_minds_of_idle hidle hitems hmem)) (by simp)
      · intro y hy
        obtain ⟨item, hmem, hsign⟩ := List.mem_filterMap.1 hy
        simp only [List.mem_append, List.mem_map, List.mem_singleton] at hmem
        rcases hmem with ⟨k, -, rfl⟩ | rfl <;>
          simp only [Item.sign, Option.some.injEq] at hsign <;> rw [← hsign]
      · rw [hb.agenda, List.append_assoc]
        refine covered_append (fun _ _ _ => by simp) ⟨(fun h => by cases h), ?_⟩
        exact covered_of_not_minds fun item hmem => not_minds_of_idle hidle (mem_threads hi)
          (List.mem_cons_of_mem _ hmem)
    · have hordered : (s.world.runnerOf? r.host).isSome → region.graph.isSequential := fun hsome => by
        by_contra hne
        exact hconcurrent ⟨hsome, by simpa using hne⟩
      have hb := World.start_ordered (w := s.seenBy rest) hknows hempty hordered
      have h' : ((s.after i (.start r region) ((s.seenBy rest).start r region)).view r).Ordered
          region _ none := .ofStart (fun hc => hordered ((concurrent_view_after hb r).symm.trans hc))
        hempty (regions_view_start hidle) (by rw [run_view_after hb, Function.update_self])
        (fun k => (progress_view_after hb r k).trans (hidle.progress k)) fun y => by
          rw [count_view_start hi hidle hb]
          simp [Item.sign, List.count_cons]
          omega
      exact hs.after_quiet hi hb (hs.runs_after_own hi hb (by simp [Item.owner]) (by simp [Item.sign])
        (by simp) (fun r' hr => Function.update_of_ne hr _ _) (fun _ _ => rfl) (.ordered h')) (by simp)

end Start

omit [Leaf α] in
/-- The start of an operation brings at most the start of its first nested run. -/
theorem signsOf_opening {c : CallKey} {op : Operation α} {opening : List (Item α ι)}
    {l : Option LoopState} {b : Backend α σ ι} {d : σ} (h : World.Opens b d c op opening l)
    (r : RunKey) :
    signsOf r (threadSigns opening) = [] ∨
      r = c.nested 0 ∧ signsOf r (threadSigns opening) = [.start] := by
  cases h with
  | @leaf _ _ effects =>
    refine .inl ?_
    have : threadSigns (effects.map (Item.effect : _ → Item α ι)) = [] := by
      simp [threadSigns, List.filterMap_eq_nil_iff, Item.sign]
    rw [this]
    rfl
  | body | branch =>
    by_cases hr : c.nested 0 = r
    · exact .inr ⟨hr.symm, by simp [Item.sign, hr]⟩
    · exact .inl (by simp [Item.sign, hr])
  | _ => simp [Item.sign]

omit [Leaf α] in
theorem start_mem_opening {c : CallKey} {op : Operation α} {opening : List (Item α ι)}
    {l : Option LoopState} {b : Backend α σ ι} {d : σ} (h : World.Opens b d c op opening l)
    {region : Program α}
    (hmem : .start r region ∈ opening) : r = c.nested 0 ∧ l = none := by
  cases h <;> simp_all

theorem Sound.act_call (hs : s.Sound) (b : Backend α σ ι) {c : CallKey}
    (hi : s.threads[i]? = some (.call c :: rest)) :
    (s.after i (.call c) ((s.seenBy rest).call b c)).Sound := by
  have hcall : 0 < (s.view c.run).marks c.node .call := count_pos_of_head hi rfl
  obtain ⟨region, mode, hrun, hlt, hshown⟩ : ∃ region mode,
      s.world.run? c.run = some ⟨region, mode⟩ ∧ c.node < region.ops.length ∧
        NodeState.called.Shown ((s.view c.run).progress c.node) ((s.view c.run).marks c.node) := by
    rcases (hs.run c.run).not_idle hi rfl with
      ⟨region, st, fin, h⟩ | ⟨region, st, t, holders, fin, h, -⟩
    · have hst := (h.shown c.node).eq_called hcall
      have hj : (st c.node).isStill = false := by simp [hst, NodeState.isStill]
      obtain rfl := h.fin_eq_none hj
      exact ⟨region, _, h.run_eq, h.follows.lt_length (NodeState.isWaiting_eq_false_of_isStill hj),
        hst ▸ h.shown _⟩
    · have hst := (h.shown c.node).eq_called hcall
      have hj : (st c.node).isStill = false := by simp [hst, NodeState.isStill]
      obtain rfl := h.fin_eq_none hj
      exact ⟨region, _, h.run_eq, h.lt_length hj, hst ▸ h.shown _⟩
  have hop : s.world.operation? c = some (region.ops[c.node]) := by
    simp [World.operation?, hrun, hlt]
  have hnew : ∀ n, ¬ s.HasBegun (c.nested n) := fun n hn => by
    have hl := (hs.fresh c n hn).1
    rw [hshown.fixed .launched rfl] at hl
    cases hl
  have hknows : (s.seenBy rest).Knows c.run := World.knows_of_run? (w := s.world) hrun
  obtain ⟨opening, l, hopens, hb⟩ := World.call_cases (w := s.seenBy rest) (b := b) hknows hop
  have hnoted : s.world.noted (.call c) = [.launched c] := by simp [World.noted, hop]
  have hown : signsOf c.run (threadSigns opening) = [] := by
    rcases signsOf_opening hopens c.run with h | ⟨h, -⟩
    · exact h
    · exact absurd h.symm (c.nested_ne 0)
  have hm : (s.view c.run).Moves ((s.after i (.call c) ((s.seenBy rest).call b c)).view c.run)
      [.node c.node .call] [.node c.node .launched, .node c.node .returned] :=
    (moves_after hi hb (by simp [Item.begins])).congr (by simp [Item.sign]) fun x => by
      simp [signsIn, hnoted, hown, Item.sign, Event.sign, List.count_cons]
      omega
  have hprogress : ∀ k, ((s.after i (.call c) ((s.seenBy rest).call b c)).view c.run).progress k =
      if k = c.node then some .entered else (s.view c.run).progress k := fun k => by
    rw [progress_view_update hb]
    by_cases hk : k = c.node
    · subst hk; simp
    · rw [if_neg hk, if_neg fun h : c = ⟨c.run, k⟩ => hk (congrArg CallKey.node h).symm]
  have hmain : (s.after i (.call c) ((s.seenBy rest).call b c)).RunSound c.run := by
    rcases (hs.run c.run).not_idle hi rfl with
      ⟨region, st, fin, h⟩ | ⟨region, st, t, holders, fin, h, hc⟩
    · exact .ordered (h.launch hm hcall hprogress (run_view_after hb c.run))
    · obtain rfl := h.fin_eq_none (j := c.node) (by
        rw [(h.shown c.node).eq_called hcall]; rfl)
      exact .scheduled (h.launch hm hcall hprogress (run_view_after hb c.run))
        fun _ => covered_of_minds hi hb rfl (hc (.inl rfl))
  refine hs.after hi hb (hs.runs_after hi hb (by simp [Item.owner]) (fun r' hr => ?_) (by simp)
    (fun _ _ => rfl) (fun c' hc' => ?_) hmain) (fun r region hmem => ?_) fun c' p l' hc' => ?_
  · have hret : signsOf r' (threadSigns [Item.returned (α := α) (ι := ι) c]) = [] := by
      simp [Item.sign, Ne.symm hr]
    rw [threadSigns_append, signsOf_append, hret, List.append_nil]
    rcases signsOf_opening hopens r' with h | ⟨rfl, h⟩
    · exact .inl h
    · exact .inr ⟨h, hnew 0⟩
  · rw [Function.update_of_ne fun h => hc' (congrArg CallKey.run h)]
    rfl
  · obtain ⟨rfl, rfl⟩ := start_mem_opening hopens (by simpa using hmem)
    refine ⟨c, 0, rfl, hknows, ?_, fun p l' hc' => by simp at hc'⟩
    have := hm.count (.node c.node .launched)
    simp at this
    simp only [RunView.marks]
    omega
  · rw [Function.update_apply] at hc'
    split at hc'
    case isTrue heq => exact .inr fun n => heq ▸ hnew n
    case isFalse => exact .inl ⟨p, l', hc', Nat.le_refl _⟩

section Finish

variable {c : CallKey} {o : Outcome} {p : Progress} {l : Option LoopState} {atOnce : Bool}

omit [Leaf α] in
theorem progress_view_erase (i : Nat) (item : Item α ι)
    (h : (s.seenBy rest).Became w items tasks run (Function.update s.world.call? c none)) :
    ((s.after i item w).view c.run).progress c.node = none ∧ ∀ k, k ≠ c.node →
      ((s.after i item w).view c.run).progress k = (s.view c.run).progress k := by
  refine ⟨by rw [progress_view_update h, if_pos rfl]; rfl, fun k hk => ?_⟩
  rw [progress_view_update h, if_neg fun h : c = ⟨c.run, k⟩ => hk (congrArg CallKey.node h).symm]

omit [Leaf α] in
theorem signsOf_followUp (region : Program α) :
    signsOf c.run (threadSigns (World.followUp c region o : List (Item α ι))) =
      RunView.sequel region c.node o := by
  unfold World.followUp RunView.sequel
  split <;> simp [Item.sign]

omit [Leaf α] in
theorem run_of_mem_followUp {region : Program α} {y : RunKey × Sign}
    (h : y ∈ threadSigns (World.followUp c region o : List (Item α ι))) : y.1 = c.run := by
  unfold World.followUp at h
  split at h <;> simp_all [Item.sign]

omit [Leaf α] in
theorem not_mem_followUp {region region' : Program α} :
    .start r region' ∉ (World.followUp c region o : List (Item α ι)) := by
  unfold World.followUp
  split <;> simp

/-- An item by which a call ends, and how: the return of its start, or its settlement. -/
structure Ends (s : Crew α σ ι) (item : Item α ι) (c : CallKey) (o : Outcome) (p : Progress)
    (atOnce : Bool) : Prop where
  call : (s.view c.run).progress c.node = some p
  owner : item.owner = some c.run
  begins : item.begins = []
  noted : s.world.noted item = [.ended c o]
  how : (p = .settled o ∧ atOnce = true ∧ item.sign = some (c.run, .node c.node .returned)) ∨
    (p = .awaited ∧ atOnce = false ∧ item.sign = none)

def endOut (c : CallKey) (atOnce : Bool) : List Sign :=
  if atOnce then [.node c.node .returned] else []

omit [Leaf α] in
theorem Ends.fixed (h : s.Ends item c o p atOnce) (k : Mark) (hk : k.isFixed) :
    (NodeState.running p).weight k + [Sign.node c.node (.ended o)].count (.node c.node k) =
      (NodeState.ended o).weight k + (endOut c atOnce).count (.node c.node k) := by
  rcases h.how with ⟨rfl, rfl, -⟩ | ⟨rfl, rfl, -⟩ <;> cases k <;>
    simp_all [NodeState.weight, Mark.isFixed, endOut, List.count_cons]

omit [Leaf α] in
theorem Ends.due (h : s.Ends item c o p atOnce) :
    (endOut c atOnce).count (.node c.node .turn) = 0 ∧
      (endOut c atOnce).count (.node c.node .queued) = 0 ∧ (endOut c atOnce).count .hold = 0 := by
  rcases h.how with ⟨-, rfl, -⟩ | ⟨-, rfl, -⟩ <;> simp [endOut]

omit [Leaf α] in
theorem Ends.local (h : s.Ends item c o p atOnce) :
    ∀ y ∈ endOut c atOnce, ∃ m, y = .node c.node m := by
  rcases h.how with ⟨-, rfl, -⟩ | ⟨-, rfl, -⟩ <;> simp [endOut]

omit [Leaf α] in
theorem Ends.out (h : s.Ends item c o p atOnce) :
    signsOf c.run item.sign.toList = endOut c atOnce := by
  rcases h.how with ⟨-, rfl, hs⟩ | ⟨-, rfl, hs⟩ <;> simp [hs, endOut]

omit [Leaf α] in
theorem call_update_progress {y : Option Call} {c' : CallKey} (hc : c'.run ≠ c.run) :
    (Function.update (s.seenBy rest).call? c y c').map Call.progress =
      (s.world.call? c').map Call.progress := by
  rw [Function.update_of_ne fun h => hc (congrArg CallKey.run h)]
  rfl

/-- A call of an ordered run ends. -/
theorem Sound.end_ordered (hs : s.Sound) (hi : s.threads[i]? = some (item :: rest))
    (he : s.Ends item c o p atOnce) {region : Program α} {st : Nat → NodeState}
    {fin : Option Outcome} (h : (s.view c.run).Ordered region st fin) :
    (s.after i item ((s.seenBy rest).finish c o atOnce)).Sound := by
  have hshown := h.shown c.node
  rw [he.call] at hshown
  have hst : st c.node = .running p := hshown.eq_running
  obtain rfl := h.fin_eq_none (j := c.node) (by simp [hst, NodeState.isStill])
  have hb := World.finish_ordered (w := s.seenBy rest) (o := o) atOnce
    (show s.world.run? c.run = _ from h.run_eq)
  have hm : (s.view c.run).Moves
      ((s.after i item ((s.seenBy rest).finish c o atOnce)).view c.run) (endOut c atOnce)
      ([.node c.node (.ended o)] ++ RunView.sequel region c.node o) :=
    (moves_after hi hb (by simp [he.begins])).congr (fun x => by rw [he.out]) fun x => by
      simp [signsIn, he.noted, signsOf_followUp, Event.sign, List.count_cons]
  obtain ⟨hnone, hsame⟩ := progress_view_erase i item hb
  obtain ⟨fin', h'⟩ := h.finish hst (fun y hy => by
      rcases List.mem_append.1 hy with hy | hy
      · exact he.local y hy
      · exact ⟨_, by simpa using hy⟩)
    hm hnone hsame (run_view_after hb c.run) (by simp [he.due]) he.fixed
  exact hs.after_update hi hb (hs.runs_after_own hi hb (by simp [he.owner])
    (fun y hy => run_of_mem_followUp hy) (by simp) (fun _ _ => rfl)
    (fun _ hc => call_update_progress hc) (.ordered h')) (fun _ _ => not_mem_followUp) (by simp)

omit [Leaf α] in
theorem covered_onward {t : Schedule} {ready : List Nat} (hrest : Covered r rest) :
    Covered r (World.onward r t ready false ++ rest) := by
  rw [World.onward, World.proceed, ← List.append_assoc, List.append_assoc]
  exact covered_append (fun _ _ _ => by simp) ⟨(fun h => by cases h), hrest⟩

/-- A call of a scheduled run ends. -/
theorem Sound.end_scheduled (hs : s.Sound) (hi : s.threads[i]? = some (item :: rest))
    (he : s.Ends item c o p atOnce) {region : Program α} {st : Nat → NodeState} {t : Schedule}
    {holders : Nat} {fin : Option Outcome}
    (h : (s.view c.run).Scheduled region st t holders fin)
    (hc : fin = none ∨ t.isComplete → ∀ items ∈ s.threads, Covered c.run items) :
    (s.after i item ((s.seenBy rest).finish c o atOnce)).Sound := by
  have hshown := h.shown c.node
  rw [he.call] at hshown
  have hst : st c.node = .running p := hshown.eq_running
  obtain rfl := h.fin_eq_none (j := c.node) (by simp [hst, NodeState.isStill])
  obtain ⟨t', ready, ht⟩ : ∃ t' ready, (t.noteEnd c.node (infoAt region c.node) o).complete c.node
    (NodeState.ended o).isBad = (t', ready) := ⟨_, _, rfl⟩
  have hb := World.finish_scheduled (w := s.seenBy rest) atOnce
    (show s.world.run? c.run = _ from h.run_eq) ht
  have hm : (s.view c.run).Moves
      ((s.after i item ((s.seenBy rest).finish c o atOnce)).view c.run) (endOut c atOnce)
      ((.node c.node (.ended o) :: if atOnce then [] else [.hold]) ++
        RunView.Scheduled.completion t' ready) :=
    (moves_after hi hb (by simp [he.begins])).congr (fun x => by rw [he.out]) fun x => by
      simp [signsIn, he.noted, count_signsOf_onward, Event.sign, List.count_cons]
  obtain ⟨hnone, hsame⟩ := progress_view_erase i item hb
  have hall := hc (.inl rfl)
  obtain ⟨st', h'⟩ := h.finish hst (fun y hy => by
      rcases List.mem_append.1 hy with hy | hy
      · exact .inr (he.local y hy)
      · rcases List.mem_cons.1 hy with rfl | hy
        · exact .inr ⟨_, rfl⟩
        · cases atOnce
          · exact .inl (by simpa using hy)
          · cases hy)
    hnone hsame (by rw [ht]) (by rw [ht]) hm
    (by rw [run_view_after hb, Function.update_self]) (by cases atOnce <;> simp [he.due])
    (fun k hk => by have := he.fixed k hk; cases atOnce <;> simpa [List.count_cons] using this)
    (by
      rcases he.how with ⟨rfl, rfl, -⟩ | ⟨rfl, rfl, -⟩ <;> simp [he.due, NodeState.isAwaited])
  refine hs.after_update hi hb (hs.runs_after_own hi hb (by simp [he.owner])
    (fun y hy => run_of_mem_onward hy) (by simp) (fun r' hr => Function.update_of_ne hr _ _)
    (fun _ hc => call_update_progress hc) (.scheduled h' fun _ => ?_)) (fun _ _ => not_mem_onward)
    (by simp)
  rcases he.how with ⟨-, rfl, hsign⟩ | ⟨-, rfl, -⟩
  · exact covered_of_minds hi hb (Item.minds_of_sign hsign rfl) hall
  · refine covered_after ?_ hall
    rw [hb.agenda]
    exact covered_onward (hall _ (mem_threads hi)).2

theorem Sound.end (hs : s.Sound) (hi : s.threads[i]? = some (item :: rest))
    (he : s.Ends item c o p atOnce) :
    (s.after i item ((s.seenBy rest).finish c o atOnce)).Sound := by
  cases hs.run c.run with
  | idle h => have := he.call; rw [h.progress] at this; cases this
  | empty h => have := he.call; rw [h.progress] at this; cases this
  | ordered h => exact hs.end_ordered hi he h
  | scheduled h hc => exact hs.end_scheduled hi he h hc

end Finish

/-- Nothing that an item does shows. -/
theorem Sound.after_silent (hs : s.Sound) (hi : s.threads[i]? = some (item :: rest))
    (h : (s.seenBy rest).Became w items tasks s.world.run? call) (hsign : item.sign = none)
    (hbegins : item.begins = []) (hnoted : (s.world.noted item).filterMap Event.sign = [])
    (hitems : ∀ x ∈ items, x.sign = none) (htasks : ∀ t ∈ tasks, t.sign = none)
    (hcall : ∀ c, (call c).map Call.progress = (s.world.call? c).map Call.progress)
    (hloops : ∀ c p l, call c = some ⟨p, some l⟩ →
      ∃ p' l', s.world.call? c = some ⟨p', some l'⟩ ∧ l'.started ≤ l.started) :
    (s.after i item w).Sound := by
  have hinn : signsIn items tasks (s.world.noted item) = [] := by
    simp only [signsIn, hnoted, threadSigns, List.append_nil, List.append_eq_nil_iff,
      List.filterMap_eq_nil_iff]
    exact ⟨hitems, htasks⟩
  refine hs.after hi h (fun r => (hs.run r).other hi h (by simp [hbegins]) (by simp [hsign])
    (by rw [hinn]; rfl) rfl fun node => hcall _) (fun r region hmem => ?_)
    fun c p l hc => .inl (hloops c p l hc)
  have := hitems _ hmem
  cases this

section Call

variable {c : CallKey} {o : Outcome} {l : Option LoopState}

omit [Leaf α] in
theorem progress_view_setCall {p : Progress}
    (h : (s.seenBy rest).Became w items tasks run (Function.update s.world.call? c (some ⟨p, l⟩)))
    (k : Nat) : ((s.after i item w).view c.run).progress k =
      if k = c.node then some p else (s.view c.run).progress k := by
  rw [progress_view_update h]
  by_cases hk : k = c.node
  · subst hk; simp
  · rw [if_neg hk, if_neg fun h : c = ⟨c.run, k⟩ => hk (congrArg CallKey.node h).symm]

omit [Leaf α] in
theorem progress_eq {p : Progress} (hc : s.world.call? c = some ⟨p, l⟩) :
    (s.view c.run).progress c.node = some p := by
  simp [view, hc]

/-- The start of a call that has not ended returns. -/
theorem Sound.act_await (hs : s.Sound) (hi : s.threads[i]? = some (.returned c :: rest))
    (hc : s.world.call? c = some ⟨.entered, l⟩) :
    (s.after i (.returned c) ((s.seenBy rest).returned c)).Sound := by
  have hreturned : 0 < (s.view c.run).marks c.node .returned := count_pos_of_head hi rfl
  have heq := World.returned_unsettled (w := s.seenBy rest) hc (by simp)
  have hnoted : s.world.noted (.returned c) = [] := by simp [World.noted, hc]
  have hunsettled : ∀ o, (s.view c.run).progress c.node ≠ some (.settled o) := by
    simp [progress_eq hc]
  have hy : ∀ p l', some (⟨.awaited, l⟩ : Call) = some ⟨p, some l'⟩ →
      ∃ p' l'', s.world.call? c = some ⟨p', some l''⟩ ∧ l''.started ≤ l'.started := by
    rintro p l' h
    obtain ⟨rfl, rfl⟩ : Progress.awaited = p ∧ l = some l' := by simpa using h
    exact ⟨_, _, hc, Nat.le_refl _⟩
  rcases (hs.run c.run).not_idle hi rfl with
    ⟨region, st, fin, h⟩ | ⟨region, st, t, holders, fin, h, hall⟩
  · have hst : st c.node = .running .entered := by
      have hshown := h.shown c.node
      rw [progress_eq hc] at hshown
      exact hshown.eq_running
    obtain rfl := h.fin_eq_none (j := c.node) (by simp [hst, NodeState.isStill])
    have hrun : s.world.run? c.run = some ⟨region, .ordered⟩ := h.run_eq
    have hhold : (s.seenBy rest).hold c.run = s.seenBy rest := by
      rw [World.hold, show (s.seenBy rest).run? c.run = _ from hrun]
    rw [hhold] at heq
    have hb : (s.seenBy rest).Became ((s.seenBy rest).returned c) [] [] s.world.run?
        (Function.update s.world.call? c (some ⟨.awaited, l⟩)) := by
      rw [heq]
      exact (World.Became.refl (s.seenBy rest)).setCall
        (World.knows_of_run? (w := s.seenBy rest) hrun) _
    have hm : (s.view c.run).Moves
        ((s.after i (.returned c) ((s.seenBy rest).returned c)).view c.run)
        [.node c.node .returned] [] :=
      (moves_after hi hb (by simp [Item.begins])).congr (by simp [Item.sign])
        (by simp [signsIn, hnoted])
    have h' := h.await hm hreturned hunsettled (progress_view_setCall hb) (run_view_after hb c.run)
    exact hs.after_update hi hb (hs.runs_after_own hi hb (by simp [Item.owner]) (by simp) (by simp)
      (fun _ _ => rfl) (fun _ hc' => call_update_progress hc') (.ordered h')) (by simp) hy
  · have hst : st c.node = .running .entered := by
      have hshown := h.shown c.node
      rw [progress_eq hc] at hshown
      exact hshown.eq_running
    obtain rfl := h.fin_eq_none (j := c.node) (by simp [hst, NodeState.isStill])
    have hrun : s.world.run? c.run = some ⟨region, .scheduled t holders⟩ := h.run_eq
    have hknows : (s.seenBy rest).Knows c.run := World.knows_of_run? (w := s.world) hrun
    rw [World.hold_scheduled (w := s.seenBy rest) hrun] at heq
    have hb : (s.seenBy rest).Became ((s.seenBy rest).returned c) [] []
        (Function.update s.world.run? c.run (some ⟨region, .scheduled t (holders + 1)⟩))
        (Function.update s.world.call? c (some ⟨.awaited, l⟩)) := by
      rw [heq]
      exact ((World.Became.refl _).setRun hknows _).setCall hknows _
    have hm : (s.view c.run).Moves
        ((s.after i (.returned c) ((s.seenBy rest).returned c)).view c.run)
        [.node c.node .returned] [] :=
      (moves_after hi hb (by simp [Item.begins])).congr (by simp [Item.sign])
        (by simp [signsIn, hnoted])
    have h' := h.await hm hreturned hunsettled (progress_view_setCall hb)
      (by rw [run_view_after hb, Function.update_self])
    exact hs.after_update hi hb (hs.runs_after_own hi hb (by simp [Item.owner]) (by simp) (by simp)
      (fun r' hr => Function.update_of_ne hr _ _) (fun _ hc' => call_update_progress hc')
      (.scheduled h' fun _ => covered_of_minds hi hb rfl (hall (.inl rfl)))) (by simp) hy

theorem Sound.act_returned (hs : s.Sound) (hi : s.threads[i]? = some (.returned c :: rest)) :
    (s.after i (.returned c) ((s.seenBy rest).returned c)).Sound := by
  have hreturned : 0 < (s.view c.run).marks c.node .returned := count_pos_of_head hi rfl
  have hprogress : (s.view c.run).progress c.node = some .entered ∨
      ∃ o, (s.view c.run).progress c.node = some (.settled o) := by
    rcases (hs.run c.run).not_idle hi rfl with
      ⟨region, st, fin, h⟩ | ⟨region, st, t, holders, fin, h, -⟩ <;>
    · rw [(h.shown c.node).progress]
      rcases (h.shown c.node).eq_returning hreturned with hst | ⟨o, hst⟩ <;>
        simp [hst, NodeState.progress?]
  cases hc : s.world.call? c with
  | none => simp [view, hc] at hprogress
  | some x =>
    obtain ⟨p, l⟩ := x
    rw [progress_eq hc] at hprogress
    rcases hprogress with hp | ⟨o, hp⟩
    · obtain rfl : p = .entered := Option.some.inj hp
      exact hs.act_await hi hc
    · obtain rfl : p = .settled o := Option.some.inj hp
      have heq : (s.seenBy rest).returned c = (s.seenBy rest).finish c o true := by
        rw [World.returned, show (s.seenBy rest).call? c = _ from hc]
      rw [heq]
      exact hs.end hi ⟨progress_eq hc, rfl, rfl, by simp [World.noted, hc], .inl ⟨rfl, rfl, rfl⟩⟩

/-- The event of a call resolves before its start has returned. -/
theorem Sound.act_settle_early (hs : s.Sound) (hi : s.threads[i]? = some (item :: rest))
    (hsign : item.sign = none) (howner : item.owner = some c.run) (hbegins : item.begins = [])
    (hnoted : s.world.noted item = []) (hc : s.world.call? c = some ⟨.entered, l⟩) :
    (s.after i item ((s.seenBy rest).settle c o)).Sound := by
  have heq : (s.seenBy rest).settle c o = (s.seenBy rest).setCall c ⟨.settled o, l⟩ := by
    rw [World.settle, show (s.seenBy rest).call? c = _ from hc]
  have hb : (s.seenBy rest).Became ((s.seenBy rest).settle c o) [] [] s.world.run?
      (Function.update s.world.call? c (some ⟨.settled o, l⟩)) := by
    rw [heq]
    exact (World.Became.refl (s.seenBy rest)).setCall
      (World.knows_of_call? (w := s.seenBy rest) hc) _
  have hm : (s.view c.run).Moves
      ((s.after i item ((s.seenBy rest).settle c o)).view c.run) [] [] :=
    (moves_after hi hb (by simp [hbegins])).congr (by simp [hsign]) (by simp [signsIn, hnoted])
  have hentered := progress_eq hc
  have hmain : (s.after i item ((s.seenBy rest).settle c o)).RunSound c.run := by
    cases hs.run c.run with
    | idle h => rw [h.progress] at hentered; cases hentered
    | empty h => rw [h.progress] at hentered; cases hentered
    | ordered h =>
      exact .ordered (h.settleEarly hm hentered (progress_view_setCall hb) (run_view_after hb c.run))
    | @scheduled region st t holders fin h hall =>
      have hshown := h.shown c.node
      rw [hentered] at hshown
      obtain rfl := h.fin_eq_none (j := c.node) (by rw [hshown.eq_running]; rfl)
      refine .scheduled (h.settleEarly hm hentered (progress_view_setCall hb)
        (run_view_after hb c.run)) fun _ => covered_after ?_ (hall (.inl rfl))
      rw [hb.agenda]
      exact (hall (.inl rfl) _ (mem_threads hi)).2
  refine hs.after_update hi hb (hs.runs_after_own hi hb (by simp [howner]) (by simp) (by simp)
    (fun _ _ => rfl) (fun _ hc' => call_update_progress hc') hmain) (by simp) fun p l' h => ?_
  obtain ⟨rfl, rfl⟩ : Progress.settled o = p ∧ l = some l' := by simpa using h
  exact ⟨_, _, hc, Nat.le_refl _⟩

/-- A call is settled, by an item or by the backend. -/
theorem Sound.act_settle (hs : s.Sound) (hi : s.threads[i]? = some (item :: rest))
    (hitem : item = .settle c o ∨ item = .effect (.settle c o)) :
    (s.after i item ((s.seenBy rest).settle c o)).Sound := by
  have hsign : item.sign = none := by rcases hitem with rfl | rfl <;> rfl
  have howner : item.owner = some c.run := by rcases hitem with rfl | rfl <;> rfl
  have hbegins : item.begins = [] := by rcases hitem with rfl | rfl <;> rfl
  have hnoted : s.world.noted item = s.world.noted (.settle c o) := by
    rcases hitem with rfl | rfl <;> rfl
  have hvoid : (∀ l, s.world.call? c ≠ some ⟨.entered, l⟩ ∧ s.world.call? c ≠ some ⟨.awaited, l⟩) →
      (s.seenBy rest).settle c o = s.seenBy rest → s.world.noted item = [] →
        (s.after i item ((s.seenBy rest).settle c o)).Sound := fun _ heq hn => by
    have hb : (s.seenBy rest).Became ((s.seenBy rest).settle c o) [] [] s.world.run?
        s.world.call? := by
      rw [heq]
      exact .refl _
    exact hs.after_silent hi hb hsign hbegins (by simp [hn]) (by simp) (by simp) (fun _ => rfl)
      fun _ p l hc => ⟨p, l, hc, Nat.le_refl _⟩
  cases hc : s.world.call? c with
  | none =>
    refine hvoid (by simp [hc]) ?_ (hnoted.trans (by simp [World.noted, hc]))
    rw [World.settle, show (s.seenBy rest).call? c = _ from hc]
  | some x =>
    obtain ⟨p, l⟩ := x
    cases p with
    | entered =>
      exact hs.act_settle_early hi hsign howner hbegins (hnoted.trans (by simp [World.noted, hc])) hc
    | awaited =>
      have heq : (s.seenBy rest).settle c o = (s.seenBy rest).finish c o false := by
        rw [World.settle, show (s.seenBy rest).call? c = _ from hc]
      rw [heq]
      exact hs.end hi ⟨progress_eq hc, howner, hbegins, hnoted.trans (by simp [World.noted, hc]),
        .inr ⟨rfl, rfl, hsign⟩⟩
    | settled o' =>
      refine hvoid (by simp [hc]) ?_ (hnoted.trans (by simp [World.noted, hc]))
      rw [World.settle, show (s.seenBy rest).call? c = _ from hc]

omit [Leaf α] in
theorem sign_of_mem_advances {l l' : LoopState} {items : List (Item α ι)} {b : Backend α σ ι}
    {d : σ} {op : Option (Operation α)} (h : World.Advances b d c op l o items l') :
    ∀ x ∈ items, x.sign = none := by
  cases h <;> simp [Item.sign]

omit [Leaf α] in
theorem started_of_advances {l l' : LoopState} {items : List (Item α ι)} {b : Backend α σ ι}
    {d : σ} {op : Option (Operation α)} (h : World.Advances b d c op l o items l') :
    l'.started = l.started := by
  cases h <;> rfl

omit [Leaf α] in
/-- A call that is only changed inside shows the same. -/
theorem update_same {p : Progress} {y : Option Call} (hc : s.world.call? c = some ⟨p, l⟩)
    (hy : y.map Call.progress = some p)
    (hl : ∀ p' l', y = some ⟨p', some l'⟩ → ∃ l'', l = some l'' ∧ l''.started ≤ l'.started) :
    (∀ c', (Function.update s.world.call? c y c').map Call.progress =
        (s.world.call? c').map Call.progress) ∧
      ∀ c' p' l', Function.update s.world.call? c y c' = some ⟨p', some l'⟩ →
        ∃ p'' l'', s.world.call? c' = some ⟨p'', some l''⟩ ∧ l''.started ≤ l'.started := by
  refine ⟨fun c' => ?_, fun c' p' l' h => ?_⟩
  · rw [Function.update_apply]
    split
    case isTrue heq => rw [heq, hc, hy]; rfl
    case isFalse => rfl
  · rw [Function.update_apply] at h
    split at h
    case isTrue heq =>
      obtain ⟨l'', rfl, hle⟩ := hl p' l' h
      exact ⟨p, l'', heq ▸ hc, hle⟩
    case isFalse => exact ⟨p', l', h, Nat.le_refl _⟩

theorem Sound.act_iterated (hs : s.Sound) (b : Backend α σ ι)
    (hi : s.threads[i]? = some (.iterated c :: rest)) :
    (s.after i (.iterated c) ((s.seenBy rest).iterated b c)).Sound := by
  have hnoted : (s.world.noted (.iterated c)).filterMap Event.sign = [] := rfl
  by_cases hc : ∃ p l, s.world.call? c = some ⟨p, some l⟩
  · obtain ⟨p, l, hc⟩ := hc
    rcases World.iterated_cases (w := s.seenBy rest) (b := b) hc with
      ⟨o, items, l', -, hadv, hb⟩ | ⟨-, hb⟩
    · obtain ⟨hcall, hloops⟩ := update_same (y := some ⟨p, some l'⟩) hc rfl fun p' l'' h => by
        obtain ⟨rfl, rfl⟩ : p = p' ∧ l' = l'' := by simpa using h
        exact ⟨l, rfl, (started_of_advances hadv).ge⟩
      exact hs.after_silent hi hb rfl rfl hnoted (sign_of_mem_advances hadv) (by simp) hcall hloops
    · obtain ⟨hcall, hloops⟩ := update_same (y := some ⟨p, some { l with progress := .awaited }⟩) hc rfl
        fun p' l'' h => by
          obtain ⟨rfl, rfl⟩ : p = p' ∧ { l with progress := .awaited } = l'' := by simpa using h
          exact ⟨l, rfl, Nat.le_refl _⟩
      exact hs.after_silent hi hb rfl rfl hnoted (by simp) (by simp) hcall hloops
  · have heq := World.iterated_other (w := s.seenBy rest) (b := b) (c := c)
      fun p l h => hc ⟨p, l, h⟩
    have hb : (s.seenBy rest).Became ((s.seenBy rest).iterated b c) [] [] s.world.run?
        s.world.call? := by
      rw [heq]
      exact .refl _
    exact hs.after_silent hi hb rfl rfl hnoted (by simp) (by simp) (fun _ => rfl)
      fun _ p l h => ⟨p, l, h, Nat.le_refl _⟩

/-- What is in flight was launched. -/
theorem RunSound.launched {p : Progress} (h : s.RunSound c.run)
    (hp : (s.view c.run).progress c.node = some p) :
    0 < (s.view c.run).marks c.node .launched := by
  cases h with
  | idle h => rw [h.progress] at hp; cases hp
  | empty h => rw [h.progress] at hp; cases hp
  | ordered h =>
    have hshown := h.shown c.node
    rw [hp] at hshown
    rw [(h.shown c.node).fixed .launched rfl, hshown.eq_running]
    simp [NodeState.weight]
  | scheduled h =>
    have hshown := h.shown c.node
    rw [hp] at hshown
    rw [(h.shown c.node).fixed .launched rfl, hshown.eq_running]
    simp [NodeState.weight]

/-- A loop begins a nested run with a number that no other has. -/
theorem Sound.act_turn (hs : s.Sound) (hi : s.threads[i]? = some (.iterate c :: rest))
    {p : Progress} {l l' : LoopState} (hc : s.world.call? c = some ⟨p, some l⟩)
    {region : Program α} (hl : l'.started = l.started + 1)
    (h : (s.seenBy rest).Became w [.start (c.nested l.started) region, .iterated c] [] s.world.run?
      (Function.update s.world.call? c (some ⟨p, some l'⟩))) :
    (s.after i (.iterate c) w).Sound := by
  have hnoted : (s.world.noted (.iterate c)).filterMap Event.sign = [] := by
    simp [World.noted, hc, Event.sign]
  obtain ⟨hcall, hloops⟩ := update_same (y := some ⟨p, some l'⟩) hc rfl fun p' l'' h => by
    obtain ⟨rfl, rfl⟩ : p = p' ∧ l' = l'' := by simpa using h
    exact ⟨l, rfl, by omega⟩
  have hne := c.nested_ne l.started
  have hnew : ¬ s.HasBegun (c.nested l.started) := fun hn =>
    Nat.lt_irrefl _ ((hs.fresh c l.started hn).2 p l hc)
  have hsigns : threadSigns ([.start (c.nested l.started) region, .iterated c] : List (Item α ι)) =
      [(c.nested l.started, Sign.start)] := by simp [Item.sign]
  have hinn : ∀ r', r' ≠ c.nested l.started → signsOf r' (signsIn
      [.start (c.nested l.started) region, .iterated c] ([] : List (Task ι))
        (s.world.noted (.iterate c))) = [] := fun r' hr => by
    simp [signsIn, hnoted, hsigns, Ne.symm hr]
  refine hs.after hi h (hs.runs_after (r := c.run) hi h (by simp [Item.owner]) (fun r' _ => ?_) (by simp)
    (fun _ _ => rfl) (fun c' _ => hcall c') ?_) (fun r region' hmem => ?_)
    fun c' p' l'' h => .inl (hloops c' p' l'' h)
  · by_cases hr : r' = c.nested l.started
    · subst hr
      exact .inr ⟨by simp [hsigns], hnew⟩
    · exact .inl (by simp [hsigns, Ne.symm hr])
  · exact (hs.run c.run).other hi h (by simp [Item.begins]) (by simp [Item.sign])
      (hinn c.run hne.symm) rfl fun node => hcall _
  · obtain ⟨rfl, -⟩ : r = c.nested l.started ∧ region' = region := by simpa using hmem
    refine ⟨c, l.started, rfl, World.knows_of_call? hc, ?_, fun p' l'' h => ?_⟩
    · exact launched_after hi h ((hs.run c.run).launched (progress_eq hc))
    · obtain ⟨-, rfl⟩ : p = p' ∧ l' = l'' := by simpa using h
      omega

theorem Sound.act_iterate (hs : s.Sound) (hi : s.threads[i]? = some (.iterate c :: rest)) :
    (s.after i (.iterate c) ((s.seenBy rest).iterate c)).Sound := by
  have hnoted : (s.world.noted (.iterate c)).filterMap Event.sign = [] := by
    simp only [World.noted]
    split <;> simp [Event.sign]
  by_cases hloop : ∃ info predicate condition body trips p l,
      s.world.operation? c = some (.loop info predicate condition body trips) ∧
        s.world.call? c = some ⟨p, some l⟩
  · obtain ⟨info, predicate, condition, body, trips, p, l, hop, hc⟩ := hloop
    obtain ⟨items, l', hturns, hb⟩ := World.iterate_cases (w := s.seenBy rest) hop hc
    cases hturns with
    | finished =>
      obtain ⟨hcall, hloops⟩ := update_same (y := some ⟨p, some l⟩) hc rfl fun p' l'' h => by
        obtain ⟨rfl, rfl⟩ : p = p' ∧ l = l'' := by simpa using h
        exact ⟨l, rfl, Nat.le_refl _⟩
      exact hs.after_silent hi hb rfl rfl hnoted (by simp [Item.sign]) (by simp) hcall hloops
    | body => exact hs.act_turn hi hc rfl hb
    | condition => exact hs.act_turn hi hc rfl hb
  · have heq : (s.seenBy rest).iterate c = s.seenBy rest := by
      rw [World.iterate]
      split
      case h_1 info predicate condition body trips p l hop hc =>
        exact absurd ⟨info, predicate, condition, body, trips, p, l, hop, hc⟩ hloop
      case h_2 => rfl
    have hb : (s.seenBy rest).Became ((s.seenBy rest).iterate c) [] [] s.world.run?
        s.world.call? := by
      rw [heq]
      exact .refl _
    exact hs.after_silent hi hb rfl rfl hnoted (by simp) (by simp) (fun _ => rfl)
      fun _ p l h => ⟨p, l, h, Nat.le_refl _⟩

end Call

section Resolve

variable {o : Outcome}

/-- A run is settled, and whatever follows does not show. -/
theorem Sound.resolve (hs : s.Sound) (hi : s.threads[i]? = some (.settleRun r o :: rest))
    (h : (s.seenBy rest).Became w items [] (Function.update s.world.run? r none) call)
    (hitems : ∀ x ∈ items, x.sign = none)
    (hcall : ∀ c, (call c).map Call.progress = (s.world.call? c).map Call.progress)
    (hloops : ∀ c p l, call c = some ⟨p, some l⟩ →
      ∃ p' l', s.world.call? c = some ⟨p', some l'⟩ ∧ l'.started ≤ l.started) :
    (s.after i (.settleRun r o) w).Sound := by
  have hover : 0 < (s.view r).count (.closing o) := count_pos_of_head hi rfl
  have hsigns : threadSigns items = [] := List.filterMap_eq_nil_iff.2 hitems
  have hm : (s.view r).Moves ((s.after i (.settleRun r o) w).view r) [.closing o] [.resolved o] :=
    (moves_after hi h (by simp [Item.begins])).congr (by simp [Item.sign])
      (by simp [signsIn, hsigns, World.noted, Event.sign])
  have hprogress : ((s.after i (.settleRun r o) w).view r).progress = (s.view r).progress :=
    funext fun k => (progress_view_after h r k).trans (hcall _)
  have hrun : ((s.after i (.settleRun r o) w).view r).run = none := by
    rw [run_view_after h, Function.update_self]
  have hmain : (s.after i (.settleRun r o) w).RunSound r := by
    cases hs.run r with
    | idle h => rw [h.count _ (by simp)] at hover; cases hover
    | @empty region h =>
      obtain rfl : o = .ok () := by
        by_contra hne
        rw [h.count _ (by simp) (by simpa using hne) (by simp)] at hover
        cases hover
      have hsame : ∀ y, y ≠ .closing (.ok ()) → y ≠ .resolved (.ok ()) →
          ((s.after i (.settleRun r (.ok ())) w).view r).count y = (s.view r).count y :=
        fun y h1 h2 => hm.eq_of_not_mem (by simpa using h1) (by simpa using h2)
      refine .empty ⟨hm.regions.trans h.regions, h.empty, hrun,
        fun j => (congrFun hprogress j).trans (h.progress j), (hsame _ (by simp) (by simp)).trans h.start,
        (hsame _ (by simp) (by simp)).trans h.started, ?_,
        fun y h1 h2 h3 => (hsame y h2 h3).trans (h.count y h1 h2 h3)⟩
      have h1 := hm.count (.closing (.ok ()))
      have h2 := hm.count (.resolved (.ok ()))
      have h3 := h.closing
      simp at h1 h2
      omega
    | ordered h => exact .ordered (h.resolve hm hover hprogress hrun).2
    | scheduled h hc =>
      refine .scheduled (h.resolve hm hover hprogress hrun).2 fun hopen => covered_after ?_ (hc hopen)
      rw [World.Became.agenda (by assumption)]
      exact covered_append (fun x hx hminds => by
        obtain ⟨y, hy⟩ := Item.sign_of_minds hminds
        rw [hitems x hx] at hy
        cases hy) (hc hopen _ (mem_threads hi)).2
  refine hs.after hi h (hs.runs_after_own hi h (by simp [Item.owner]) (by simp [hsigns]) (by simp)
    (fun r' hr => Function.update_of_ne hr _ _) (fun c _ => hcall c) hmain) (fun r region hmem => ?_)
    fun c p l hc => .inl (hloops c p l hc)
  have := hitems _ hmem
  cases this

theorem Sound.act_settleRun (hs : s.Sound) (b : Backend α σ ι)
    (hi : s.threads[i]? = some (.settleRun r o :: rest)) :
    (s.after i (.settleRun r o) ((s.seenBy rest).settleRun b r o)).Sound := by
  cases hr : r.caller? with
  | none =>
    exact hs.resolve hi (World.settleRun_outermost (w := s.seenBy rest) (b := b) hr o) (by simp)
      (fun _ => rfl) fun _ p l h => ⟨p, l, h, Nat.le_refl _⟩
  | some c =>
    obtain ⟨items, y, hb, hcases⟩ := World.settleRun_nested (w := s.seenBy rest) (b := b) hr o
    have hfacts : (∀ x ∈ items, x.sign = none) ∧
        (∀ c', (Function.update s.world.call? c y c').map Call.progress =
          (s.world.call? c').map Call.progress) ∧
        ∀ c' p' l', Function.update s.world.call? c y c' = some ⟨p', some l'⟩ →
          ∃ p'' l'', s.world.call? c' = some ⟨p'', some l''⟩ ∧ l''.started ≤ l'.started := by
      rcases hcases with ⟨hc, rfl, rfl⟩ | ⟨p, hc, rfl, rfl⟩ | ⟨p, l, hc, hcases⟩
      · have hc' : s.world.call? c = none := hc
        rw [← hc', Function.update_eq_self]
        exact ⟨by simp, fun _ => rfl, fun c' p' l' h => ⟨p', l', h, Nat.le_refl _⟩⟩
      · exact ⟨by simp [Item.sign], update_same hc rfl (by simp)⟩
      · rcases hcases with ⟨-, rfl, rfl⟩ | ⟨-, l', hadv, rfl⟩ | ⟨-, rfl, rfl⟩
        · refine ⟨by simp, update_same hc rfl fun p' l'' h => ?_⟩
          obtain ⟨rfl, rfl⟩ : p = p' ∧ { l with progress := .settled o } = l'' := by simpa using h
          exact ⟨l, rfl, Nat.le_refl _⟩
        · refine ⟨sign_of_mem_advances hadv, update_same hc rfl fun p' l'' h => ?_⟩
          obtain ⟨rfl, rfl⟩ : p = p' ∧ l' = l'' := by simpa using h
          exact ⟨l, rfl, (started_of_advances hadv).ge⟩
        · refine ⟨by simp, update_same hc rfl fun p' l'' h => ?_⟩
          obtain ⟨rfl, rfl⟩ : p = p' ∧ l = l'' := by simpa using h
          exact ⟨l, rfl, Nat.le_refl _⟩
    exact hs.resolve hi hb hfacts.1 hfacts.2.1 hfacts.2.2

end Resolve

theorem Sound.act_effect (hs : s.Sound) (b : Backend α σ ι) {e : Effect ι}
    (hi : s.threads[i]? = some (.effect e :: rest)) :
    (s.after i (.effect e) ((s.seenBy rest).carryOut b e)).Sound := by
  cases e with
  | settle c o => exact hs.act_settle hi (.inr rfl)
  | work x =>
    obtain ⟨items, hb, hitems⟩ := World.carryOut_work (w := s.seenBy rest) b x
    refine hs.after_silent hi hb rfl rfl rfl (fun y hy => ?_) (by simp) (fun _ => rfl)
      fun _ p l h => ⟨p, l, h, Nat.le_refl _⟩
    obtain ⟨e, rfl⟩ := hitems y hy
    rfl
  | submit k x =>
    obtain ⟨items, tasks, hb, hitems, htasks⟩ := World.carryOut_submit (w := s.seenBy rest) b k x
    refine hs.after_silent hi hb rfl rfl rfl (fun y hy => ?_) (fun t ht => ?_) (fun _ => rfl)
      fun _ p l h => ⟨p, l, h, Nat.le_refl _⟩
    · obtain ⟨e, rfl⟩ := hitems y hy
      rfl
    · obtain ⟨x, rfl⟩ := htasks t ht
      rfl

end Crew

end OpFlow.Machine
