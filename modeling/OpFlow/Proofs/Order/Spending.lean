import Mathlib.Algebra.GroupWithZero.Nat
import OpFlow.Proofs.Order.Process

/-!
What items and tasks are worth. An item spends no more on what it brings about than it is worth
itself, unless a run is to begin or an operation has ended or been skipped; and then it spends a
little more, as the number of operations of the regions allows.
-/
namespace OpFlow

open Machine

namespace Machine

variable {α : Type} {n : Nat}

/-- What may be spent on a run that begins, or on an operation that has ended or been skipped, when no
region has more operations than this. -/
def price (n : Nat) : Nat := 11 * n + 20

/-- What an item is worth. -/
def Item.weight (n : Nat) : Item α Empty → Nat
  | .start _ _ => 11 * n + 18
  | .submit _ _ => 11
  | .visit _ _ => 5
  | .release _ | .call _ => 4
  | .settleRun _ _ | .iterated _ => 3
  | .iterate _ => 2
  | .returned _ | .settle _ _ | .effect _ => 1

def weigh (n : Nat) (items : List (Item α Empty)) : Nat := (items.map (Item.weight n)).sum

@[simp] theorem weigh_nil : weigh n ([] : List (Item α Empty)) = 0 := rfl

@[simp] theorem weigh_cons (item : Item α Empty) (items : List (Item α Empty)) :
    weigh n (item :: items) = item.weight n + weigh n items := List.sum_cons

@[simp] theorem weigh_append (items items' : List (Item α Empty)) :
    weigh n (items ++ items') = weigh n items + weigh n items' := by
  simp [weigh]

theorem weigh_submit (r : RunKey) (nodes : List Nat) :
    weigh n (nodes.map (Item.submit r) : List (Item α Empty)) = 11 * nodes.length := by
  induction nodes with
  | nil => rfl
  | cons node nodes ih =>
    rw [List.map_cons, weigh_cons, ih, List.length_cons, Item.weight]
    omega

/-- What is spent on an item. -/
inductive World.Spends (n : Nat) (w : World α Bench Empty) (item : Item α Empty)
    (items : List (Item α Empty)) (tasks : List (Task Empty)) : Prop
  | saves (h : weigh n items + 10 * tasks.length < item.weight n)
  | begins {c : CallKey} {number : Nat} {region : Program α}
      (hmem : .start (c.nested number) region ∈ items)
      (h : weigh n items + 10 * tasks.length < item.weight n + price n)
  | completes {c : CallKey} (hc : (∃ o, .ended c o ∈ w.noted item) ∨ .skipped c ∈ w.noted item)
      (h : weigh n items + 10 * tasks.length < item.weight n + price n)

theorem World.Spends.of_length {w : World α Bench Empty} {item : Item α Empty}
    {items : List (Item α Empty)} {tasks tasks' : List (Task Empty)} (h : w.Spends n item items tasks)
    (hlength : tasks'.length = tasks.length) : w.Spends n item items tasks' := by
  cases h with
  | saves h => exact .saves (hlength ▸ h)
  | begins hmem h => exact .begins hmem (hlength ▸ h)
  | completes hc h => exact .completes hc (hlength ▸ h)

namespace World

variable {w : World α Bench Empty} {r : RunKey} {c : CallKey} {o : Outcome} {node : Nat}
  {item : Item α Empty}

/-- No node of a run that goes by its graph releases more than so many others. -/
def Releases (n : Nat) (w : World α Bench Empty) : Prop :=
  ∀ r region t holders, w.run? r = some ⟨region, .scheduled t holders⟩ →
    ∀ node, (t.graph.succsOf node).length ≤ n

theorem length_releaseAll_le (t : Schedule) (poison : Bool) (nodes : List Nat) :
    (t.releaseAll poison nodes).2.length ≤ nodes.length := by
  induction nodes generalizing t with
  | nil => exact le_rfl
  | cons node nodes ih =>
    have := ih (t.release node poison).1
    simp only [Schedule.releaseAll]
    split
    · simpa using this
    · exact this.trans (Nat.le_succ _)

theorem weigh_onward_lt {t : Schedule} {ready : List Nat} (hready : ready.length ≤ n) (atOnce : Bool) :
    weigh n (onward r t ready atOnce : List (Item α Empty)) < price n := by
  have hproceed : weigh n (World.proceed r atOnce ready : List (Item α Empty)) ≤
      11 * ready.length + 5 := by
    cases atOnce with
    | false => simp [World.proceed, weigh_submit, Item.weight]
    | true =>
      cases ready with
      | nil => simp [World.proceed]
      | cons first others =>
        simp only [World.proceed, weigh_append, weigh_submit, weigh_cons, weigh_nil, Item.weight,
          List.length_cons]
        omega
  rw [onward, weigh_append, price]
  split
  · simp only [weigh_cons, weigh_nil, Item.weight]
    omega
  · rw [weigh_nil]
    omega

theorem weigh_followUp_lt {region : Program α} : weigh n (followUp c region o : List (Item α Empty)) <
    price n := by
  rw [price, followUp]
  split <;> simp only [weigh_cons, weigh_nil, Item.weight] <;> omega

/-! ### Items -/

theorem start_spends [Leaf α] {region : Program α} (hr : w.Knows r) (hn : region.ops.length ≤ n) :
    ∃ items run, w.Became (w.start r region) items [] run w.call? ∧
      w.Spends n (.start r region) items [] := by
  by_cases hempty : region.ops = []
  · exact ⟨_, _, start_empty hempty, .saves (by simp [Item.weight])⟩
  · by_cases hrunner : (w.runnerOf? r.host).isSome ∧ region.graph.isSequential = false
    · refine ⟨_, _, start_scheduled hr hempty hrunner.1 hrunner.2, .saves ?_⟩
      have hle : region.graph.sources.length ≤ region.ops.length := by
        refine (List.length_filter_le _ _).trans ?_
        simp [Region.graph, Region.footprints]
      simp only [weigh_append, weigh_submit, weigh_cons, weigh_nil, Item.weight,
        List.length_nil]
      omega
    · refine ⟨_, _, start_ordered hr hempty fun h => ?_, .saves (by simp [Item.weight])⟩
      by_contra hne
      exact hrunner ⟨h, by simpa using hne⟩

theorem visit_spends (hw : w.Releases n) : ∃ items run,
    w.Became (w.visit r node) items [] run w.call? ∧ w.Spends n (.visit r node) items [] := by
  by_cases hrun : ∃ region s holders, w.run? r = some ⟨region, .scheduled s holders⟩
  · obtain ⟨region, t, holders, hrun⟩ := hrun
    cases hp : t.isPoisoned node with
    | true =>
      have hready : (t.skip.complete node true).2.length ≤ n :=
        (length_releaseAll_le _ _ _).trans (hw r region t holders hrun node)
      refine ⟨_, _, visit_poisoned hrun hp rfl, .completes (c := ⟨r, node⟩) (.inr ?_) ?_⟩
      · simp [noted, hrun, hp]
      · exact (weigh_onward_lt hready _).trans_le (Nat.le_add_left _ _)
    | false =>
      cases hc : t.conflict? node with
      | none => exact ⟨_, _, visit_enter hrun hp hc, .saves (by simp [Item.weight])⟩
      | some other =>
        refine ⟨[], w.run?, ?_, .saves (by simp [Item.weight])⟩
        rw [visit, hrun]
        simp only [hp, Bool.false_eq_true, if_false, hc]
        exact (Became.refl w).of_eq rfl rfl rfl
  · refine ⟨[], _, .of_same ?_, .saves (by simp [Item.weight])⟩
    rw [visit]
    split
    case h_1 region s holders h => exact absurd ⟨region, s, holders, h⟩ hrun
    case h_2 => rfl

theorem submit_spends : ∃ items tasks run,
    w.Became (w.submit r node) items tasks run w.call? ∧ w.Spends n (.submit r node) items tasks := by
  obtain ⟨run, h⟩ := hold_cases w r
  rw [submit]
  split
  case h_1 => exact ⟨_, _, _, h.pushOnly _, .saves (by simp [tasks, Item.weight])⟩
  case h_2 q' hq =>
    simp only [offer] at hq
    split at hq
    case h_1 q hk => exact ⟨_, _, _, h.keep hk hq, .saves (by simp [Item.weight])⟩
    case h_2 => cases hq
  case h_3 => exact ⟨_, _, _, h.pushOnly _, .saves (by simp [Item.weight])⟩

theorem release_spends : ∃ items run,
    w.Became (w.release r) items [] run w.call? ∧ w.Spends n (.release r) items [] := by
  by_cases hrun : ∃ region s holders, w.run? r = some ⟨region, .scheduled s holders⟩
  · obtain ⟨region, s, holders, hrun⟩ := hrun
    by_cases hlast : holders ≤ 1
    · exact ⟨_, _, release_last hrun hlast, .saves (by simp [Item.weight])⟩
    · exact ⟨_, _, release_other hrun hlast, .saves (by simp [Item.weight])⟩
  · refine ⟨[], _, .of_same ?_, .saves (by simp [Item.weight])⟩
    rw [release]
    split
    case h_1 region s holders h => exact absurd ⟨region, s, holders, h⟩ hrun
    case h_2 => rfl

theorem finish_spends (hw : w.Releases n) (atOnce : Bool) : ∃ items run,
    w.Became (w.finish c o atOnce) items [] run (Function.update w.call? c none) ∧
      weigh n items < price n := by
  cases hrun : w.run? c.run with
  | none => exact ⟨_, _, finish_gone hrun, by simp [price]⟩
  | some x =>
    obtain ⟨region, mode⟩ := x
    cases mode with
    | ordered => exact ⟨_, _, finish_ordered _ hrun, weigh_followUp_lt⟩
    | scheduled t holders =>
      have hgraph : (t.noteEnd c.node (infoAt region c.node) o).graph = t.graph := by
        rw [Schedule.noteEnd_eq]
        unfold Schedule.leave
        split <;> rfl
      refine ⟨_, _, finish_scheduled _ hrun rfl, weigh_onward_lt ?_ _⟩
      exact (length_releaseAll_le _ _ _).trans (hgraph ▸ hw _ region t holders hrun c.node)

theorem settle_spends (hw : w.Releases n) (hitem : item.Settles c o) : ∃ items run call,
    w.Became (w.settle c o) items [] run call ∧ w.Spends n item items [] := by
  have hpos : 0 < item.weight n := by
    rcases hitem with rfl | rfl <;> simp [Item.weight]
  have hsaves : w.Spends n item [] [] := .saves (by simpa using hpos)
  cases hc : w.call? c with
  | none =>
    have heq : w.settle c o = w := by rw [settle, hc]
    exact ⟨_, _, _, .of_same heq, hsaves⟩
  | some x =>
    obtain ⟨p, l⟩ := x
    cases p with
    | entered =>
      have heq : w.settle c o = w.setCall c ⟨.settled o, l⟩ := by rw [settle, hc]
      exact ⟨_, _, _, heq ▸ (Became.refl w).setCall (knows_of_call? hc) _, hsaves⟩
    | awaited =>
      have heq : w.settle c o = w.finish c o false := by rw [settle, hc]
      obtain ⟨items, run, h, hitems⟩ := finish_spends (c := c) (o := o) hw false
      refine ⟨_, _, _, heq ▸ h, .completes (c := c) (.inl ⟨o, ?_⟩) ?_⟩
      · rcases hitem with rfl | rfl <;> simp [noted, hc]
      · exact hitems.trans_le (Nat.le_add_left _ _)
    | settled o' =>
      have heq : w.settle c o = w := by rw [settle, hc]
      exact ⟨_, _, _, .of_same heq, hsaves⟩

theorem returned_spends (hw : w.Releases n) : ∃ items run call,
    w.Became (w.returned c) items [] run call ∧ w.Spends n (.returned c) items [] := by
  cases hc : w.call? c with
  | none =>
    have heq : w.returned c = w := by rw [returned, hc]
    exact ⟨_, _, _, .of_same heq, .saves (by simp [Item.weight])⟩
  | some x =>
    obtain ⟨p, l⟩ := x
    by_cases hp : ∃ o, p = .settled o
    · obtain ⟨o, rfl⟩ := hp
      have heq : w.returned c = w.finish c o true := by rw [returned, hc]
      obtain ⟨items, run, h, hitems⟩ := finish_spends (c := c) (o := o) hw true
      refine ⟨_, _, _, heq ▸ h, .completes (c := c) (.inl ⟨o, by simp [noted, hc]⟩) ?_⟩
      exact hitems.trans_le (Nat.le_add_left _ _)
    · obtain ⟨run, h⟩ := hold_cases w c.run
      rw [returned_unsettled hc fun o ho => hp ⟨o, ho⟩]
      exact ⟨_, _, _, h.setCall (knows_of_call? hc) _, .saves (by simp [Item.weight])⟩

theorem weigh_go_le [Leaf α] (d : Bench) (p : Process) :
    weigh n ((d.go c p).2.map Item.effect : List (Item α Empty)) ≤ 1 := by
  rw [Bench.go]
  split <;> simp [Item.weight]

theorem call_spends [Leaf α] (P : Conduct α) : ∃ items run call,
    w.Became (w.call P.backend c) items [] run call ∧ w.Spends n (.call c) items [] := by
  cases hop : w.operation? c with
  | none =>
    have heq : w.call P.backend c = w := by rw [World.call, hop]
    exact ⟨_, _, _, .of_same heq, .saves (by simp [Item.weight])⟩
  | some op =>
    have hknows : w.Knows c.run := by
      obtain ⟨x, hx, -⟩ := Option.bind_eq_some_iff.1 hop
      exact knows_of_run? hx
    obtain ⟨opening, l, hopens, h⟩ := call_cases (b := P.backend) hknows hop
    refine ⟨_, _, _, h, ?_⟩
    cases hopens with
    | @leaf info a effects hlaunch =>
      obtain rfl := Except.ok.inj hlaunch
      have := weigh_go_le (α := α) (n := n) (c := c) w.device (P.process a)
      refine .saves ?_
      simp only [weigh_append, weigh_cons, weigh_nil, Item.weight, List.length_nil]
      omega
    | panicked hlaunch => cases hlaunch
    | body | branch =>
      refine .begins List.mem_cons_self ?_
      simp only [List.singleton_append, weigh_cons, weigh_nil, Item.weight, price, List.length_nil]
      omega
    | unread | nothing | loop => exact .saves (by simp [Item.weight])

theorem Advances.weigh_le {b : Backend α Bench Empty} {d : Bench} {op : Option (Operation α)}
    {l l' : LoopState} {items : List (Item α Empty)} (h : Advances b d c op l o items l') :
    weigh n items ≤ 2 := by
  cases h <;> simp [Item.weight]

theorem iterate_spends : ∃ items run call,
    w.Became (w.iterate c) items [] run call ∧ w.Spends n (.iterate c) items [] := by
  by_cases hloop : ∃ info predicate condition body trips p l,
      w.operation? c = some (.loop info predicate condition body trips) ∧
        w.call? c = some ⟨p, some l⟩
  · obtain ⟨info, predicate, condition, body, trips, p, l, hop, hc⟩ := hloop
    obtain ⟨items, l', hturns, h⟩ := iterate_cases hop hc
    refine ⟨_, _, _, h, ?_⟩
    cases hturns with
    | finished => exact .saves (by simp [Item.weight])
    | body | condition =>
      refine .begins List.mem_cons_self ?_
      simp only [weigh_cons, weigh_nil, Item.weight, price, List.length_nil]
      omega
  · have heq : w.iterate c = w := by
      rw [iterate]
      split
      case h_1 info predicate condition body trips p l hop hc =>
        exact absurd ⟨info, predicate, condition, body, trips, p, l, hop, hc⟩ hloop
      case h_2 => rfl
    exact ⟨_, _, _, .of_same heq, .saves (by simp [Item.weight])⟩

theorem iterated_spends (b : Backend α Bench Empty) : ∃ items run call,
    w.Became (w.iterated b c) items [] run call ∧ w.Spends n (.iterated c) items [] := by
  by_cases hc : ∃ p l, w.call? c = some ⟨p, some l⟩
  · obtain ⟨p, l, hc⟩ := hc
    rcases iterated_cases (b := b) hc with ⟨o, items, l', hl, hadv, h⟩ | ⟨hl, h⟩
    · exact ⟨_, _, _, h, .saves (by simpa [Item.weight, Nat.lt_succ_iff] using hadv.weigh_le)⟩
    · exact ⟨_, _, _, h, .saves (by simp [Item.weight])⟩
  · have hnone : ∀ p l, w.call? c ≠ some ⟨p, some l⟩ := fun p l h => hc ⟨p, l, h⟩
    exact ⟨_, _, _, .of_same (iterated_other hnone), .saves (by simp [Item.weight])⟩

theorem settleRun_spends (b : Backend α Bench Empty) : ∃ items run call,
    w.Became (w.settleRun b r o) items [] run call ∧ w.Spends n (.settleRun r o) items [] := by
  cases hr : r.caller? with
  | none => exact ⟨_, _, _, settleRun_outermost hr o, .saves (by simp [Item.weight])⟩
  | some c =>
    obtain ⟨items, y, h, hcases⟩ := settleRun_nested (w := w) (b := b) hr o
    refine ⟨_, _, _, h, .saves ?_⟩
    rcases hcases with ⟨hc, rfl, rfl⟩ | ⟨p, hc, rfl, rfl⟩ |
      ⟨p, l, hc, ⟨hl, rfl, rfl⟩ | ⟨hl, l', hadv, rfl⟩ | ⟨hl, rfl, rfl⟩⟩
    · simp [Item.weight]
    · simp [Item.weight]
    · simp [Item.weight]
    · simpa [Item.weight, Nat.lt_succ_iff] using hadv.weigh_le
    · simp [Item.weight]

/-- What a step spends. -/
theorem step_spends [Leaf α] {P : Conduct α} {w' : World α Bench Empty} {agenda : List (Item α Empty)}
    (hagenda : w.agenda = item :: agenda) (h : w.step? P.backend = some w') (hw : w.Releases n)
    (hstart : ∀ r region, item = .start r region → w.Knows r ∧ region.ops.length ≤ n) :
    ∃ items tasks run call, ({ w with agenda } : World α Bench Empty).Became w' items tasks run call ∧
      ({ w with agenda } : World α Bench Empty).Spends n item items tasks := by
  rw [step?, hagenda] at h
  obtain rfl := Option.some.inj h
  have hw' : ({ w with agenda } : World α Bench Empty).Releases n := hw
  cases item with
  | start r region =>
    obtain ⟨hr, hn⟩ := hstart r region rfl
    obtain ⟨items, run, hb, hs⟩ := start_spends (w := { w with agenda }) hr hn
    exact ⟨_, _, _, _, hb, hs⟩
  | visit r node =>
    obtain ⟨items, run, hb, hs⟩ := visit_spends hw'
    exact ⟨_, _, _, _, hb, hs⟩
  | submit r node =>
    obtain ⟨items, tasks, run, hb, hs⟩ := submit_spends (w := { w with agenda })
    exact ⟨_, _, _, _, hb, hs⟩
  | release r =>
    obtain ⟨items, run, hb, hs⟩ := release_spends (w := { w with agenda })
    exact ⟨_, _, _, _, hb, hs⟩
  | call c =>
    obtain ⟨items, run, call, hb, hs⟩ := call_spends (w := { w with agenda }) P
    exact ⟨_, _, _, _, hb, hs⟩
  | returned c =>
    obtain ⟨items, run, call, hb, hs⟩ := returned_spends hw'
    exact ⟨_, _, _, _, hb, hs⟩
  | settle c o =>
    obtain ⟨items, run, call, hb, hs⟩ :=
      settle_spends hw' (show (Item.settle c o).Settles c o from .inl rfl)
    exact ⟨_, _, _, _, hb, hs⟩
  | settleRun r o =>
    obtain ⟨items, run, call, hb, hs⟩ := settleRun_spends (w := { w with agenda }) P.backend
    exact ⟨_, _, _, _, hb, hs⟩
  | iterate c =>
    obtain ⟨items, run, call, hb, hs⟩ := iterate_spends (w := { w with agenda })
    exact ⟨_, _, _, _, hb, hs⟩
  | iterated c =>
    obtain ⟨items, run, call, hb, hs⟩ := iterated_spends (w := { w with agenda }) P.backend
    exact ⟨_, _, _, _, hb, hs⟩
  | effect e =>
    cases e with
    | settle c o =>
      obtain ⟨items, run, call, hb, hs⟩ :=
        settle_spends hw' (show (Item.effect (.settle c o)).Settles c o from .inr rfl)
      exact ⟨_, _, _, _, hb, hs⟩
    | work i => exact i.elim
    | submit k i => exact i.elim

end World

end Machine

end OpFlow
