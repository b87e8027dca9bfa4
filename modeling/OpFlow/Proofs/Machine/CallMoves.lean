import OpFlow.Proofs.Machine.Outcome

/-!
What a step does to calls. Besides what their runs show, threads hold tokens of calls: that a call is
to be settled, that a loop is to ask for its next nested run, or that the start of one has returned.
There is one relation that says for every item what it does to calls, which tokens it brings and
which runs it begins.
-/
namespace OpFlow.Machine

variable {α σ ι : Type}

/-- What a thread holds of a call. -/
inductive Token
  | settle (outcome : Outcome)
  | iterate
  | iterated
  deriving DecidableEq

def Item.token : Item α ι → Option (CallKey × Token)
  | .settle c o => some (c, .settle o)
  | .iterate c => some (c, .iterate)
  | .iterated c => some (c, .iterated)
  | .start _ _ | .visit _ _ | .submit _ _ | .release _ | .call _ | .returned _ | .settleRun _ _
  | .effect _ => none

structure Item.IsPlain (x : Item α ι) : Prop where
  token : x.token = none
  start : ∀ r region, x ≠ .start r region

def Item.sparesCalls : Item α ι → Prop
  | .start _ _ | .visit _ _ | .submit _ _ | .release _ | .effect (.work _)
  | .effect (.submit _ _) => True
  | .settleRun r _ => r.scope = []
  | .call _ | .returned _ | .settle _ _ | .iterate _ | .iterated _ | .effect (.settle _ _) => False

def Item.Settles (x : Item α ι) (c : CallKey) (o : Outcome) : Prop :=
  x = .settle c o ∨ x = .effect (.settle c o)

/-- What an item does to calls: the items that follow from it, and the calls afterwards. -/
inductive CallMove (b : Backend α σ ι) (w : World α σ ι) :
    Item α ι → List (Item α ι) → (CallKey → Option Call) → Prop
  | spares {item : Item α ι} {items : List (Item α ι)} (hitem : item.sparesCalls)
      (hitems : ∀ x ∈ items, Item.IsPlain x) : CallMove b w item items w.call?
  | uncalled {c : CallKey} (hop : w.operation? c = none) : CallMove b w (.call c) [] w.call?
  | called {c : CallKey} {op : Operation α} {opening : List (Item α ι)} {l : Option LoopState}
      (hop : w.operation? c = some op) (h : World.Opens b w.device c op opening l) :
    CallMove b w (.call c) (opening ++ [.returned c])
      (Function.update w.call? c (some { loop := l }))
  | awaited {c : CallKey} {p : Progress} {l : Option LoopState} (hc : w.call? c = some ⟨p, l⟩)
      (hp : ∀ o, p ≠ .settled o) :
    CallMove b w (.returned c) [] (Function.update w.call? c (some ⟨.awaited, l⟩))
  | unreturned {c : CallKey} (hc : w.call? c = none) : CallMove b w (.returned c) [] w.call?
  /-- A call ends, when its start returns or later. -/
  | ended {item : Item α ι} {items : List (Item α ι)} {c : CallKey} {o : Outcome}
      {l : Option LoopState}
      (hitem : item = .returned c ∧ w.call? c = some ⟨.settled o, l⟩ ∨
        item.Settles c o ∧ w.call? c = some ⟨.awaited, l⟩)
      (hitems : ∀ x ∈ items, Item.IsPlain x) :
    CallMove b w item items (Function.update w.call? c none)
  | settled {item : Item α ι} {c : CallKey} {o : Outcome} {l : Option LoopState}
      (hitem : item.Settles c o) (hc : w.call? c = some ⟨.entered, l⟩) :
    CallMove b w item [] (Function.update w.call? c (some ⟨.settled o, l⟩))
  | void {item : Item α ι} {c : CallKey} {o : Outcome} (hitem : item.Settles c o)
      (hc : ∀ p l, w.call? c = some ⟨p, l⟩ → ∃ o', p = .settled o') : CallMove b w item [] w.call?
  | turns {c : CallKey} {p : Progress} {l l' : LoopState} {items : List (Item α ι)} {info : OpInfo}
      {predicate : Slice} {condition body : Program α} {trips : Option Nat}
      (hop : w.operation? c = some (.loop info predicate condition body trips))
      (hc : w.call? c = some ⟨p, some l⟩) (h : World.Turns c condition body trips l items l') :
    CallMove b w (.iterate c) items (Function.update w.call? c (some ⟨p, some l'⟩))
  | turnless {c : CallKey} (h : ∀ info predicate condition body trips p l,
      w.operation? c = some (.loop info predicate condition body trips) →
        w.call? c ≠ some ⟨p, some l⟩) : CallMove b w (.iterate c) [] w.call?
  | advances {c : CallKey} {p : Progress} {l l' : LoopState} {o : Outcome} {items : List (Item α ι)}
      (hc : w.call? c = some ⟨p, some l⟩) (hl : l.progress = .settled o)
      (h : World.Advances b w.device c (w.operation? c) l o items l') :
    CallMove b w (.iterated c) items (Function.update w.call? c (some ⟨p, some l'⟩))
  | waits {c : CallKey} {p : Progress} {l : LoopState} (hc : w.call? c = some ⟨p, some l⟩)
      (hl : ∀ o, l.progress ≠ .settled o) :
    CallMove b w (.iterated c) []
      (Function.update w.call? c (some ⟨p, some { l with progress := .awaited }⟩))
  | loopless {c : CallKey} (hc : ∀ p l, w.call? c ≠ some ⟨p, some l⟩) :
    CallMove b w (.iterated c) [] w.call?
  /-- A nested run ends, and its call goes on in one of these ways. -/
  | passed {r : RunKey} {o : Outcome} {c : CallKey} {p : Progress} (hr : r.caller? = some c)
      (hc : w.call? c = some ⟨p, none⟩) : CallMove b w (.settleRun r o) [.settle c o] w.call?
  | noted {r : RunKey} {o : Outcome} {c : CallKey} {p : Progress} {l : LoopState}
      (hr : r.caller? = some c) (hc : w.call? c = some ⟨p, some l⟩) (hl : l.progress = .entered) :
    CallMove b w (.settleRun r o) []
      (Function.update w.call? c (some ⟨p, some { l with progress := .settled o }⟩))
  | goesOn {r : RunKey} {o : Outcome} {c : CallKey} {p : Progress} {l l' : LoopState}
      {items : List (Item α ι)} (hr : r.caller? = some c) (hc : w.call? c = some ⟨p, some l⟩)
      (hl : l.progress = .awaited)
      (h : World.Advances b w.device c (w.operation? c) l o items l') :
    CallMove b w (.settleRun r o) items (Function.update w.call? c (some ⟨p, some l'⟩))
  | late {r : RunKey} {o : Outcome} {c : CallKey} (hr : r.caller? = some c)
      (hc : ∀ p l, w.call? c = some ⟨p, l⟩ → ∃ l' o', l = some l' ∧ l'.progress = .settled o') :
    CallMove b w (.settleRun r o) [] w.call?

namespace World

variable {w w' : World α σ ι} {b : Backend α σ ι} {c : CallKey} {o : Outcome}

theorem Became.of_same (h : w' = w) : w.Became w' [] [] w.run? w.call? := h ▸ .refl w

theorem isPlain_onward {r : RunKey} {t : Schedule} {ready : List Nat} {atOnce : Bool}
    {x : Item α ι} (h : x ∈ onward r t ready atOnce) : x.IsPlain := by
  rcases mem_onward h with ⟨o, rfl⟩ | ⟨k, rfl⟩ | ⟨k, rfl⟩ | rfl <;> exact ⟨rfl, by simp⟩

theorem isPlain_followUp {region : Program α} {x : Item α ι} (h : x ∈ followUp c region o) :
    x.IsPlain := by
  unfold followUp at h
  split at h <;> obtain rfl := List.mem_singleton.1 h <;> exact ⟨rfl, by simp⟩

theorem finish_cases (w : World α σ ι) (c : CallKey) (o : Outcome) (atOnce : Bool) :
    ∃ items run, w.Became (w.finish c o atOnce) items [] run (Function.update w.call? c none) ∧
      ∀ x ∈ items, x.IsPlain := by
  cases hrun : w.run? c.run with
  | none => exact ⟨_, _, finish_gone hrun, by simp⟩
  | some x =>
    obtain ⟨region, mode⟩ := x
    cases mode with
    | ordered => exact ⟨_, _, finish_ordered _ hrun, fun _ => isPlain_followUp⟩
    | scheduled s holders => exact ⟨_, _, finish_scheduled _ hrun rfl, fun _ => isPlain_onward⟩

/-- A call is settled, by an item or by the backend. -/
theorem settle_cases (w : World α σ ι) (item : Item α ι) (hitem : item.Settles c o) :
    ∃ items run call, w.Became (w.settle c o) items [] run call ∧ CallMove b w item items call := by
  cases hc : w.call? c with
  | none =>
    have heq : w.settle c o = w := by rw [settle, hc]
    exact ⟨_, _, _, .of_same heq, .void hitem (by simp [hc])⟩
  | some x =>
    obtain ⟨p, l⟩ := x
    cases p with
    | entered =>
      have heq : w.settle c o = w.setCall c ⟨.settled o, l⟩ := by rw [settle, hc]
      exact ⟨_, _, _, heq ▸ (Became.refl w).setCall (knows_of_call? hc) _, .settled hitem hc⟩
    | awaited =>
      have heq : w.settle c o = w.finish c o false := by rw [settle, hc]
      obtain ⟨items, run, h, hitems⟩ := finish_cases w c o false
      exact ⟨_, _, _, heq ▸ h, .ended (.inr ⟨hitem, hc⟩) hitems⟩
    | settled o' =>
      have heq : w.settle c o = w := by rw [settle, hc]
      refine ⟨_, _, _, .of_same heq, .void hitem fun p l h => ⟨o', ?_⟩⟩
      rw [hc] at h
      cases h
      rfl

theorem hold_cases (w : World α σ ι) (r : RunKey) :
    ∃ run, w.Became (w.hold r) [] [] run w.call? := by
  rw [hold]
  split
  case h_1 region s holders hrun => exact ⟨_, (Became.refl w).setRun (knows_of_run? hrun) _⟩
  case h_2 => exact ⟨_, .refl w⟩

theorem returned_cases (w : World α σ ι) (c : CallKey) :
    ∃ items run call, w.Became (w.returned c) items [] run call ∧
      CallMove b w (.returned c) items call := by
  cases hc : w.call? c with
  | none =>
    have heq : w.returned c = w := by rw [returned, hc]
    exact ⟨_, _, _, .of_same heq, .unreturned hc⟩
  | some x =>
    obtain ⟨p, l⟩ := x
    by_cases hp : ∃ o, p = .settled o
    · obtain ⟨o, rfl⟩ := hp
      have heq : w.returned c = w.finish c o true := by rw [returned, hc]
      obtain ⟨items, run, h, hitems⟩ := finish_cases w c o true
      exact ⟨_, _, _, heq ▸ h, .ended (.inl ⟨rfl, hc⟩) hitems⟩
    · obtain ⟨run, h⟩ := hold_cases w c.run
      rw [returned_unsettled hc fun o ho => hp ⟨o, ho⟩]
      exact ⟨_, _, _, h.setCall (knows_of_call? hc) _, .awaited hc fun o ho => hp ⟨o, ho⟩⟩

theorem settleRun_cases (w : World α σ ι) (r : RunKey) (o : Outcome) :
    ∃ items run call, w.Became (w.settleRun b r o) items [] run call ∧
      CallMove b w (.settleRun r o) items call := by
  cases hr : r.caller? with
  | none =>
    exact ⟨_, _, _, settleRun_outermost hr o, .spares (RunKey.caller?_eq_none.1 hr) (by simp)⟩
  | some c =>
    obtain ⟨items, y, h, hcases⟩ := settleRun_nested (w := w) (b := b) hr o
    refine ⟨_, _, _, h, ?_⟩
    rcases hcases with ⟨hc, rfl, rfl⟩ | ⟨p, hc, rfl, rfl⟩ |
      ⟨p, l, hc, ⟨hl, rfl, rfl⟩ | ⟨hl, l', hadv, rfl⟩ | ⟨⟨o', hl⟩, rfl, rfl⟩⟩
    · rw [← hc, Function.update_eq_self]
      exact .late hr (by simp [hc])
    · rw [← hc, Function.update_eq_self]
      exact .passed hr hc
    · exact .noted hr hc hl
    · exact .goesOn hr hc hl hadv
    · rw [← hc, Function.update_eq_self]
      refine .late hr fun p' l' h' => ⟨l, o', ?_, hl⟩
      rw [hc] at h'
      cases h'
      rfl

theorem launched_cases (w : World α σ ι) (c : CallKey) :
    ∃ items run call, w.Became (w.call b c) items [] run call ∧
      CallMove b w (.call c) items call := by
  cases hop : w.operation? c with
  | none =>
    have heq : w.call b c = w := by rw [World.call, hop]
    exact ⟨_, _, _, .of_same heq, .uncalled hop⟩
  | some op =>
    have hknows : w.Knows c.run := by
      obtain ⟨x, hx, -⟩ := Option.bind_eq_some_iff.1 hop
      exact knows_of_run? hx
    obtain ⟨opening, l, hopens, h⟩ := call_cases (b := b) hknows hop
    exact ⟨_, _, _, h, .called hop hopens⟩

theorem turn_cases (w : World α σ ι) (c : CallKey) :
    ∃ items run call, w.Became (w.iterate c) items [] run call ∧
      CallMove b w (.iterate c) items call := by
  by_cases hloop : ∃ info predicate condition body trips p l,
      w.operation? c = some (.loop info predicate condition body trips) ∧
        w.call? c = some ⟨p, some l⟩
  · obtain ⟨info, predicate, condition, body, trips, p, l, hop, hc⟩ := hloop
    obtain ⟨items, l', hturns, h⟩ := iterate_cases hop hc
    exact ⟨_, _, _, h, .turns hop hc hturns⟩
  · have heq : w.iterate c = w := by
      rw [iterate]
      split
      case h_1 info predicate condition body trips p l hop hc =>
        exact absurd ⟨info, predicate, condition, body, trips, p, l, hop, hc⟩ hloop
      case h_2 => rfl
    exact ⟨_, _, _, .of_same heq, .turnless fun info predicate condition body trips p l hop hc =>
      hloop ⟨info, predicate, condition, body, trips, p, l, hop, hc⟩⟩

theorem turned_cases (w : World α σ ι) (c : CallKey) :
    ∃ items run call, w.Became (w.iterated b c) items [] run call ∧
      CallMove b w (.iterated c) items call := by
  by_cases hc : ∃ p l, w.call? c = some ⟨p, some l⟩
  · obtain ⟨p, l, hc⟩ := hc
    rcases iterated_cases (b := b) hc with ⟨o, items, l', hl, hadv, h⟩ | ⟨hl, h⟩
    · exact ⟨_, _, _, h, .advances hc hl hadv⟩
    · exact ⟨_, _, _, h, .waits hc hl⟩
  · have hnone : ∀ p l, w.call? c ≠ some ⟨p, some l⟩ := fun p l h => hc ⟨p, l, h⟩
    exact ⟨_, _, _, .of_same (iterated_other hnone), .loopless hnone⟩

theorem started_cases [Leaf α] (w : World α σ ι) {r : RunKey} (region : Program α) (hr : w.Knows r) :
    ∃ items run, w.Became (w.start r region) items [] run w.call? ∧
      ∀ x ∈ items, Item.IsPlain x := by
  have hplain : ∀ nodes : List Nat, ∀ x ∈ nodes.map (Item.submit r) ++ [.release r],
      Item.IsPlain (x : Item α ι) := fun nodes x hx => by
    simp only [List.mem_append, List.mem_map, List.mem_singleton] at hx
    rcases hx with ⟨k, -, rfl⟩ | rfl <;> exact ⟨rfl, by simp⟩
  by_cases hempty : region.ops = []
  · exact ⟨_, _, start_empty hempty, by simpa using ⟨rfl, by simp⟩⟩
  · by_cases hrunner : (w.runnerOf? r.host).isSome ∧ region.graph.isSequential = false
    · exact ⟨_, _, start_scheduled hr hempty hrunner.1 hrunner.2, hplain _⟩
    · refine ⟨_, _, start_ordered hr hempty fun h => ?_, by simpa using ⟨rfl, by simp⟩⟩
      by_contra hne
      exact hrunner ⟨h, by simpa using hne⟩

theorem visited_cases (w : World α σ ι) (r : RunKey) (node : Nat) :
    ∃ items run, w.Became (w.visit r node) items [] run w.call? ∧
      ∀ x ∈ items, Item.IsPlain x := by
  by_cases hrun : ∃ region s holders, w.run? r = some ⟨region, .scheduled s holders⟩
  · obtain ⟨region, s, holders, hrun⟩ := hrun
    cases hp : s.isPoisoned node with
    | true => exact ⟨_, _, visit_poisoned hrun hp rfl, fun _ => isPlain_onward⟩
    | false =>
      cases hc : s.conflict? node with
      | none => exact ⟨_, _, visit_enter hrun hp hc, by simpa using ⟨rfl, by simp⟩⟩
      | some other =>
        refine ⟨[], w.run?, ?_, by simp⟩
        rw [visit, hrun]
        simp only [hp, Bool.false_eq_true, if_false, hc]
        exact (Became.refl w).of_eq rfl rfl rfl
  · refine ⟨[], _, .of_same ?_, by simp⟩
    rw [visit]
    split
    case h_1 region s holders h => exact absurd ⟨region, s, holders, h⟩ hrun
    case h_2 => rfl

theorem submitted_cases (w : World α σ ι) (r : RunKey) (node : Nat) :
    ∃ items tasks run, w.Became (w.submit r node) items tasks run w.call? ∧
      ∀ x ∈ items, Item.IsPlain x := by
  obtain ⟨run, h⟩ := hold_cases w r
  rw [submit]
  split
  case h_1 =>
    exact ⟨_, _, _, h.pushOnly _, by simpa [tasks] using ⟨⟨rfl, by simp⟩, ⟨rfl, by simp⟩⟩⟩
  case h_2 q' hq =>
    simp only [offer] at hq
    split at hq
    case h_1 q hk => exact ⟨_, _, _, h.keep hk hq, by simp⟩
    case h_2 => cases hq
  case h_3 => exact ⟨_, _, _, h.pushOnly _, by simpa using ⟨rfl, by simp⟩⟩

theorem released_cases (w : World α σ ι) (r : RunKey) :
    ∃ items run, w.Became (w.release r) items [] run w.call? ∧ ∀ x ∈ items, Item.IsPlain x := by
  by_cases hrun : ∃ region s holders, w.run? r = some ⟨region, .scheduled s holders⟩
  · obtain ⟨region, s, holders, hrun⟩ := hrun
    by_cases hlast : holders ≤ 1
    · exact ⟨_, _, release_last hrun hlast, by simpa using ⟨rfl, by simp⟩⟩
    · exact ⟨_, _, release_other hrun hlast, by simp⟩
  · refine ⟨[], _, .of_same ?_, by simp⟩
    rw [release]
    split
    case h_1 region s holders h => exact absurd ⟨region, s, holders, h⟩ hrun
    case h_2 => rfl

/-- What a step does. A run that is to be started belongs to an execution. -/
theorem step_cases [Leaf α] {item : Item α ι} {agenda : List (Item α ι)}
    (hw : w.agenda = item :: agenda) (h : w.step? b = some w')
    (hknown : ∀ r region, item = .start r region → w.Knows r) :
    ∃ items tasks run call, ({ w with agenda } : World α σ ι).Became w' items tasks run call ∧
      CallMove b { w with agenda } item items call := by
  rw [step?, hw] at h
  obtain rfl := Option.some.inj h
  have hplain : ∀ {items tasks run w''} {item : Item α ι},
      ({ w with agenda } : World α σ ι).Became w'' items tasks run w.call? → item.sparesCalls →
        (∀ x ∈ items, Item.IsPlain x) → ∃ items tasks run call,
          ({ w with agenda } : World α σ ι).Became w'' items tasks run call ∧
            CallMove b { w with agenda } item items call :=
    fun hb hitem hitems => ⟨_, _, _, _, hb, .spares hitem hitems⟩
  cases item with
  | start r region =>
    obtain ⟨items, run, hb, hitems⟩ := started_cases { w with agenda } region (hknown r region rfl)
    exact hplain hb trivial hitems
  | visit r node =>
    obtain ⟨items, run, hb, hitems⟩ := visited_cases { w with agenda } r node
    exact hplain hb trivial hitems
  | submit r node =>
    obtain ⟨items, tasks, run, hb, hitems⟩ := submitted_cases { w with agenda } r node
    exact hplain hb trivial hitems
  | release r =>
    obtain ⟨items, run, hb, hitems⟩ := released_cases { w with agenda } r
    exact hplain hb trivial hitems
  | call c =>
    obtain ⟨items, run, call, hb, hm⟩ := launched_cases (b := b) { w with agenda } c
    exact ⟨_, _, _, _, hb, hm⟩
  | returned c =>
    obtain ⟨items, run, call, hb, hm⟩ := returned_cases (b := b) { w with agenda } c
    exact ⟨_, _, _, _, hb, hm⟩
  | settle c o =>
    obtain ⟨items, run, call, hb, hm⟩ :=
      settle_cases (b := b) { w with agenda } (.settle c o) (.inl rfl)
    exact ⟨_, _, _, _, hb, hm⟩
  | settleRun r o =>
    obtain ⟨items, run, call, hb, hm⟩ := settleRun_cases (b := b) { w with agenda } r o
    exact ⟨_, _, _, _, hb, hm⟩
  | iterate c =>
    obtain ⟨items, run, call, hb, hm⟩ := turn_cases (b := b) { w with agenda } c
    exact ⟨_, _, _, _, hb, hm⟩
  | iterated c =>
    obtain ⟨items, run, call, hb, hm⟩ := turned_cases (b := b) { w with agenda } c
    exact ⟨_, _, _, _, hb, hm⟩
  | effect e =>
    cases e with
    | settle c o =>
      obtain ⟨items, run, call, hb, hm⟩ :=
        settle_cases (b := b) { w with agenda } (.effect (.settle c o)) (.inr rfl)
      exact ⟨_, _, _, _, hb, hm⟩
    | work x =>
      obtain ⟨items, hb, hitems⟩ := carryOut_work (w := { w with agenda }) b x
      refine hplain hb trivial fun y hy => ?_
      obtain ⟨e, rfl⟩ := hitems y hy
      exact ⟨rfl, by simp⟩
    | submit k x =>
      obtain ⟨items, tasks, hb, hitems, -⟩ := carryOut_submit (w := { w with agenda }) b k x
      refine hplain hb trivial fun y hy => ?_
      obtain ⟨e, rfl⟩ := hitems y hy
      exact ⟨rfl, by simp⟩

end World

end OpFlow.Machine
