import OpFlow.Proofs.Machine.InOrder

/-!
The counters of a host that executes its program by its graph. Such a run counts what it skips only
when all its nodes have completed, and until then it owes that to the counters of its host. What a
host has counted and what its runs still owe together grow with each event by what it is worth.
-/
namespace OpFlow.Machine

open Finset (range)

variable {α σ ι : Type}

/-- What an event is worth to the counters, where a region is executed by its graph. -/
def Event.price : Event → Stats
  | .started _ => { executions := 1 }
  | .launched _ => { launched := 1 }
  | .skipped _ => { skipped := 1 }
  | .ended _ (.error _) => { failed := 1 }
  | .ended _ (.ok ()) | .dropped _ | .turned _ _ | .resolved _ _ => 0

def earned (k : Nat) (log : List Event) : Stats :=
  total Event.price (fun e => e.run.isOutermost k) log

theorem earned_append (k : Nat) (log log' : List Event) :
    earned k (log ++ log') = earned k log + earned k log' := total_append ..

theorem earned_singleton (k : Nat) (e : Event) :
    earned k [e] = if e.run.isOutermost k then e.price else 0 := total_singleton ..

/-- What a run has skipped and not yet counted. -/
def Run.owed (x : Run α) : Nat :=
  match x.mode with
  | .scheduled s _ => if s.isComplete then 0 else s.skipped
  | .ordered => 0

theorem Run.owed_scheduled (region : Program α) (s : Schedule) (holders : Nat) :
    Run.owed ⟨region, .scheduled s holders⟩ = if s.isComplete then 0 else s.skipped := rfl

namespace World

/-- What a run still owes to the counters of its host. -/
def owed (w : World α σ ι) (r : RunKey) : Nat := (w.run? r).elim 0 Run.owed

def executionsOn (w : World α σ ι) (k : Nat) : Nat :=
  (w.hosts[k]?.map fun h => h.executions.size).getD 0

def counters (w : World α σ ι) (k : Nat) : Stats := ((w.profile k).map Prod.snd).getD 0

/-- What a host has counted, and what its runs still owe. -/
def credit (w : World α σ ι) (k : Nat) : Stats :=
  w.counters k + { skipped := ∑ e ∈ range (w.executionsOn k), w.owed ⟨k, e, []⟩ }

section Owed

variable {w w' : World α σ ι} {r r' : RunKey}

theorem owed_congr (h : w'.run? r = w.run? r) : w'.owed r = w.owed r := by rw [owed, h, owed]

theorem owed_eq (h : w.run? r = none) : w.owed r = 0 := by rw [owed, h]; rfl

theorem owed_scheduled {region : Program α} {s : Schedule} {holders : Nat}
    (h : w.run? r = some ⟨region, .scheduled s holders⟩) :
    w.owed r = if s.isComplete then 0 else s.skipped := by
  rw [owed, h]
  rfl

variable (w r)

@[simp] theorem owed_push (items : List (Item α ι)) : (w.push items).owed r = w.owed r := rfl
@[simp] theorem owed_setRunner (i : Nat) (q : Runner (Task ι)) :
    (w.setRunner i q).owed r = w.owed r := rfl
@[simp] theorem owed_count (r' : RunKey) (f : Stats → Stats) : (w.count r' f).owed r = w.owed r :=
  owed_congr (run?_count ..)
@[simp] theorem owed_setCall (c : CallKey) (y : Call) : (w.setCall c y).owed r = w.owed r :=
  owed_congr (run?_setCall ..)
@[simp] theorem owed_eraseCall (c : CallKey) : (w.eraseCall c).owed r = w.owed r :=
  owed_congr (run?_eraseCall ..)

variable {w r}

theorem owed_setRun (hr : w.Knows r) (x : Run α) : (w.setRun r x).owed r = x.owed := by
  rw [owed, run?_setRun_of_knows _ _ _ _ hr, if_pos rfl]
  rfl

theorem owed_setRun_of_ne (h : r ≠ r') (x : Run α) : (w.setRun r' x).owed r = w.owed r :=
  owed_congr (by rw [run?_setRun, if_neg h])

theorem owed_eraseRun_of_ne (h : r ≠ r') : (w.eraseRun r').owed r = w.owed r :=
  owed_congr (by rw [run?_eraseRun, if_neg h])

theorem owed_rehold {region : Program α} {s : Schedule} {holders holders' : Nat}
    (h : w.run? r' = some ⟨region, .scheduled s holders⟩) :
    (w.setRun r' ⟨region, .scheduled s holders'⟩).owed r = w.owed r := by
  by_cases hr : r = r'
  · subst hr
    rw [owed_setRun (knows_of_run? h), owed_scheduled h]
    rfl
  · exact owed_setRun_of_ne hr _

variable (w r r')

@[simp] theorem owed_hold : (w.hold r').owed r = w.owed r := by
  rw [hold]
  split
  case h_1 hrun => exact owed_rehold hrun
  case h_2 => rfl

@[simp] theorem owed_submit (node : Nat) : (w.submit r' node).owed r = w.owed r := by
  rw [submit]
  split <;> simp

@[simp] theorem owed_release : (w.release r').owed r = w.owed r := by
  rw [release]
  split
  case h_1 hrun =>
    split
    · rfl
    · exact owed_rehold hrun
  case h_2 => rfl

@[simp] theorem owed_advance (b : Backend α σ ι) (c : CallKey) (y : Call) (l : LoopState)
    (o : Outcome) : (w.advance b c y l o).owed r = w.owed r := by
  cases o with
  | error e => rfl
  | ok u =>
    rw [advance]
    repeat' split
    all_goals simp

@[simp] theorem owed_iterate (c : CallKey) : (w.iterate c).owed r = w.owed r := by
  rw [iterate]
  repeat' split
  all_goals simp

@[simp] theorem owed_iterated (b : Backend α σ ι) (c : CallKey) :
    (w.iterated b c).owed r = w.owed r := by
  rw [iterated]
  repeat' split
  all_goals simp

@[simp] theorem owed_noteCall (c : CallKey) (op : Operation α) :
    (w.noteCall c op).owed r = w.owed r := owed_count w r c.run _

@[simp] theorem owed_call (b : Backend α σ ι) (c : CallKey) : (w.call b c).owed r = w.owed r := by
  cases hop : w.operation? c with
  | none => rw [World.call, hop]
  | some op =>
    obtain ⟨x, hx, -⟩ := Option.bind_eq_some_iff.1 hop
    obtain ⟨opening, l, -, h⟩ := call_cases (b := b) (knows_of_run? hx) hop
    exact owed_congr (congrFun h.run r)

variable {w r r'}

theorem owed_settleRun_of_ne {b : Backend α σ ι} (h : r ≠ r') (o : Outcome) :
    (w.settleRun b r' o).owed r = w.owed r := by
  have herase := owed_eraseRun_of_ne (w := w) h
  have hout : ((w.eraseRun r').modifyExecution r' fun x => { x with outcome := some o }).owed r =
      (w.eraseRun r').owed r :=
    owed_congr (congrFun ((Became.refl (w.eraseRun r')).setOutcome r' o).run r)
  rw [settleRun]
  repeat' split
  all_goals simp [herase, hout]

theorem owed_completeNode_of_ne (h : r ≠ r') (region : Program α) (s : Schedule)
    (holders node : Nat) (failed atOnce : Bool) :
    (w.completeNode r' region s holders node failed atOnce).owed r = w.owed r := by
  rw [completeNode]
  dsimp only
  split <;> simp [owed_setRun_of_ne h]

theorem owed_completeNode (hr : w.Knows r) (region : Program α) (s : Schedule)
    (holders node : Nat) (failed atOnce : Bool) :
    (w.completeNode r region s holders node failed atOnce).owed r =
      if (s.complete node failed).1.isComplete then 0 else (s.complete node failed).1.skipped := by
  rw [completeNode]
  dsimp only
  split <;> simp [owed_setRun hr, Run.owed_scheduled, *]

theorem owed_finish_of_ne {c : CallKey} (h : r ≠ c.run) (o : Outcome) (atOnce : Bool) :
    (w.finish c o atOnce).owed r = w.owed r := by
  rw [finish]
  dsimp only
  repeat' split
  all_goals simp [owed_completeNode_of_ne h]

theorem owed_visit_of_ne (h : r ≠ r') (node : Nat) : (w.visit r' node).owed r = w.owed r := by
  rw [visit]
  split
  case h_1 =>
    split
    · exact owed_completeNode_of_ne h ..
    · split
      · rfl
      · exact owed_setRun_of_ne h _
  case h_2 => rfl

theorem owed_start_of_ne [Leaf α] (h : r ≠ r') (region : Program α) :
    (w.start r' region).owed r = w.owed r := by
  rw [World.start]
  dsimp only
  repeat' split
  all_goals simp [owed_setRun_of_ne h]

end Owed

section Credit

variable {w w' : World α σ ι} {r : RunKey} {k : Nat} {d g : Stats}

theorem knows_iff {e : Nat} : w.Knows ⟨k, e, []⟩ ↔ e < w.executionsOn k := by
  unfold Knows execution? executionsOn
  cases w.hosts[k]? <;> simp

theorem executionsOn_eq (h : ∀ r, w'.Knows r ↔ w.Knows r) :
    w'.executionsOn k = w.executionsOn k := by
  have hlt : ∀ e, e < w'.executionsOn k ↔ e < w.executionsOn k := fun e => by
    rw [← knows_iff, ← knows_iff, h]
  have := hlt (w.executionsOn k)
  have := hlt (w'.executionsOn k)
  omega

theorem counters_of_profile (hp : w'.profile k = (w.profile k).map (grown d))
    (hk : (w.profile k).isSome) : w'.counters k = w.counters k + d := by
  obtain ⟨x, hx⟩ := Option.isSome_iff_exists.1 hk
  rw [counters, hp, counters, hx]
  rfl

theorem credit_congr (hknows : ∀ r, w'.Knows r ↔ w.Knows r) (hp : w'.profile k = w.profile k)
    (howed : ∀ r, r.isOutermost k → w'.owed r = w.owed r) : w'.credit k = w.credit k := by
  have hsum : ∀ e, w'.owed ⟨k, e, []⟩ = w.owed ⟨k, e, []⟩ :=
    fun e => howed _ (by simp [RunKey.isOutermost])
  simp only [credit, counters, hp, executionsOn_eq hknows, hsum]

/-- The credit of a host when one of its runs has moved: what has been counted, and what this run
owes afterwards, comes from what it owed before and from what has happened. -/
theorem credit_of_moved (hknows : ∀ r, w'.Knows r ↔ w.Knows r) (hr : r.isOutermost k)
    (hkr : w.Knows r) (hp : w'.profile k = (w.profile k).map (grown d))
    (hother : ∀ r', r' ≠ r → w'.owed r' = w.owed r')
    (hpaid : d + { skipped := w'.owed r } = { skipped := w.owed r } + g) :
    w'.credit k = w.credit k + g := by
  have hrun := RunKey.eq_of_isOutermost hr
  rw [hrun] at hkr hpaid
  have hsome : (w.profile k).isSome := by
    obtain ⟨x, hx⟩ := Option.isSome_iff_exists.1 hkr
    obtain ⟨h, hh, -⟩ := Option.bind_eq_some_iff.1 hx
    simp [profile, hh]
  have hsum := sum_range_update (knows_iff.1 hkr) (f := fun e => w.owed ⟨k, e, []⟩)
    (g := fun e => w'.owed ⟨k, e, []⟩) fun e he => hother _ fun heq => he (by
      rw [hrun] at heq
      exact congrArg RunKey.execution heq)
  have hfields := fun f : Stats → Nat => congrArg f hpaid
  rw [credit, credit, counters_of_profile hp hsome, executionsOn_eq hknows]
  refine Stats.ext ?_ ?_ ?_ ?_ ?_
  · have := hfields Stats.executions
    simp only [Stats.executions_add] at this ⊢
    omega
  · have := hfields Stats.sequential
    simp only [Stats.sequential_add] at this ⊢
    omega
  · have := hfields Stats.launched
    simp only [Stats.launched_add] at this ⊢
    omega
  · have := hfields Stats.failed
    simp only [Stats.failed_add] at this ⊢
    omega
  · have := hfields Stats.skipped
    simp only [Stats.skipped_add] at this ⊢
    omega

theorem credit_of_counted (hknows : ∀ r, w'.Knows r ↔ w.Knows r) (hr : r.isOutermost k)
    (hkr : w.Knows r) (hp : w'.profile k = (w.profile k).map (grown d))
    (howed : ∀ r, w'.owed r = w.owed r) : w'.credit k = w.credit k + d :=
  credit_of_moved hknows hr hkr hp (fun r' _ => howed r') (by rw [howed, add_comm])

/-- When a node of a run completes, the run owes what its schedule says, or has just paid it. -/
theorem credit_completeNode (hr : r.isOutermost k) (hkr : w.Knows r) (region : Program α)
    {s : Schedule} (holders node : Nat) (failed atOnce : Bool)
    (hg : ({ skipped := s.skipped } : Stats) = { skipped := w.owed r } + g) :
    (w.completeNode r region s holders node failed atOnce).credit k = w.credit k + g := by
  have hskipped : (s.complete node failed).1.skipped = s.skipped :=
    (s.sameButNodes_releaseAll failed (s.graph.succsOf node)).skipped
  have hb := (Became.refl w).completeNode hkr region s holders node failed atOnce
  have hother : ∀ r', r' ≠ r →
      (w.completeNode r region s holders node failed atOnce).owed r' = w.owed r' :=
    fun r' h => owed_completeNode_of_ne h ..
  have howed := owed_completeNode hkr region s holders node failed atOnce
  rw [hskipped] at howed
  cases hc : (s.complete node failed).1.isComplete with
  | true =>
    refine credit_of_moved (d := { skipped := s.skipped }) hb.knows hr hkr ?_ hother ?_
    · rw [completeNode]
      dsimp only
      rw [if_pos hc, hskipped, profile_push, profile_count, if_pos hr, profile_setRun]
      rfl
    · rw [howed, hc, if_pos rfl, ← hg]
      rfl
  | false =>
    refine credit_of_moved (d := 0) hb.knows hr hkr ?_ hother ?_
    · rw [completeNode]
      dsimp only
      rw [if_neg (by simp [hc]), profile_push, profile_setRun]
      simp
    · rw [howed, hc, if_neg (by simp), zero_add, hg]

def IsOpen (w : World α σ ι) (r : RunKey) : Prop :=
  ∃ region s holders, w.run? r = some ⟨region, .scheduled s holders⟩ ∧ s.isComplete = false

theorem credit_start [Leaf α] {region : Program α} (hknows : w.Knows r)
    (hr : r.isOutermost k → w.run? r = none ∧ (w.runnerOf? r.host).isSome ∧
      region.graph.isSequential = false) :
    (w.start r region).credit k = w.credit k + earned k [.started r] := by
  rw [earned_singleton]
  cases hk : r.isOutermost k with
  | true =>
    obtain ⟨hnone, hrunner, hunordered⟩ := hr hk
    have hne : region.ops ≠ [] := fun hempty => by
      simp [Graph.isSequential, Region.graph, Region.footprints, hempty] at hunordered
    have hb := start_scheduled hknows hne hrunner hunordered
    have howed : (w.start r region).owed r = 0 := by
      rw [owed_scheduled ((congrFun hb.run r).trans (Function.update_self ..))]
      split <;> rfl
    refine credit_of_moved (d := { executions := 1 }) hb.knows hk hknows ?_
      (fun r' h => owed_start_of_ne h region) ?_
    · rw [World.start, if_neg (by simpa using hne)]
      simp only [hrunner, hunordered, Bool.not_false, Bool.and_self, if_true, profile_push,
        profile_setRun, profile_count, hk]
      rfl
    · rw [howed, owed_eq hnone]
      simp [Event.run, hk, Event.price, add_comm]
  | false =>
    obtain ⟨items, run, hb, -⟩ := started_cases w region hknows
    rw [credit_congr hb.knows (profile_start_of_not w hk region) fun r' hr' =>
      owed_start_of_ne (fun heq => by simp [heq, hk] at hr') region]
    simp [Event.run, hk]

/-- The end of an operation is worth a failure or nothing. -/
theorem credit_finish {c : CallKey} (hc : c.run.isOutermost k → w.IsOpen c.run) (o : Outcome)
    (atOnce : Bool) : (w.finish c o atOnce).credit k = w.credit k + earned k [.ended c o] := by
  rw [earned_singleton]
  cases hk : c.run.isOutermost k with
  | true =>
    obtain ⟨region, s, holders, hrun, hopen⟩ := hc hk
    have hknows := knows_of_run? hrun
    have howed : ∀ {s' : Schedule}, s'.skipped = s.skipped →
        ({ skipped := s'.skipped } : Stats) = { skipped := w.owed c.run } + 0 := fun {s'} h => by
      rw [h, owed_scheduled hrun, hopen, if_neg (by simp), add_zero]
    have hfailed : ((w.eraseCall c).count c.run fun t => { t with failed := t.failed + 1 }).credit k =
        w.credit k + { failed := 1 } := by
      refine credit_of_counted (by simp) hk hknows ?_ (by simp)
      rw [profile_count, if_pos hk, profile_eraseCall]
      rfl
    have heraseCall : (w.eraseCall c).credit k = w.credit k :=
      credit_congr (by simp) (by simp) (by simp)
    rw [World.finish, run?_eraseCall, hrun]
    simp only [Event.run, hk, if_true]
    cases o with
    | error e =>
      dsimp only
      rw [credit_completeNode (g := 0) hk (by simpa using hknows) _ _ _ _ _
        (by
          simp only [owed_count, owed_eraseCall]
          refine howed ?_
          rw [Schedule.recordError_eq]
          exact Schedule.skipped_leave ..),
        hfailed, add_zero]
      rfl
    | ok u =>
      dsimp only
      rw [credit_completeNode (g := 0) hk (by simpa using hknows) _ _ _ _ _
        (by
          rw [owed_eraseCall]
          exact howed (Schedule.skipped_leave ..)), heraseCall]
      rfl
  | false =>
    obtain ⟨items, run, hb, -⟩ := finish_cases w c o atOnce
    rw [credit_congr hb.knows (profile_finish_of_not w hk o atOnce) fun r hr =>
      owed_finish_of_ne (fun heq => by simp [heq, hk] at hr) o atOnce]
    simp [Event.run, hk]

/-- A node that is visited is skipped, which its run owes from then on, or called. -/
theorem credit_visit {node : Nat} (hr : r.isOutermost k → (w.run? r).isSome → w.IsOpen r) :
    (w.visit r node).credit k = w.credit k + earned k (w.noted (.visit r node)) := by
  obtain ⟨items, run, hb, -⟩ := visited_cases w r node
  cases hk : r.isOutermost k with
  | false =>
    have hnone : earned k (w.noted (.visit r node)) = 0 := total_eq_zero _ _ fun e he hrun => by
      rw [World.noted] at he
      split at he
      · split at he
        · obtain rfl := List.mem_singleton.1 he
          simp [Event.run, hk] at hrun
        · cases he
      · cases he
    have hp : (w.visit r node).profile k = w.profile k := by
      rw [visit]
      repeat' split
      all_goals first | simp [profile_completeNode_of_not _ hk] | rfl
    rw [hnone, add_zero, credit_congr hb.knows hp fun r' hr' =>
      owed_visit_of_ne (fun heq => by simp [heq, hk] at hr') node]
  | true =>
    cases hrun : w.run? r with
    | none =>
      rw [visit, World.noted, hrun]
      simp [earned]
    | some x =>
      obtain ⟨region, s, holders, hrun', hopen⟩ := hr hk (by simp [hrun])
      obtain rfl := Option.some.inj (hrun.symm.trans hrun')
      have howed : w.owed r = s.skipped := by simp [owed_scheduled hrun, hopen]
      rw [World.noted, hrun]
      dsimp only
      cases hp : s.isPoisoned node with
      | true =>
        rw [visit, hrun]
        simp only [hp, if_true, earned_singleton, Event.run, hk]
        refine credit_completeNode hk (knows_of_run? hrun) _ _ _ _ _ ?_
        rw [howed]
        rfl
      | false =>
        have hsame : (w.visit r node).credit k = w.credit k := by
          refine credit_congr hb.knows ?_ fun r' _ => ?_
          · rw [visit, hrun]
            simp only [hp, Bool.false_eq_true, if_false]
            split
            · rfl
            · simp
          · rw [visit, hrun]
            simp only [hp, Bool.false_eq_true, if_false]
            split
            · rfl
            · rw [owed_push]
              by_cases heq : r' = r
              · subst heq
                rw [owed_setRun (knows_of_run? hrun), Run.owed_scheduled, owed_scheduled hrun]
                unfold Schedule.enter
                split <;> rfl
              · exact owed_setRun_of_ne heq _
        rw [hsame]
        simp [earned]

theorem credit_unpaid {w' : World α σ ι} (hknows : ∀ r, w'.Knows r ↔ w.Knows r)
    (hp : w'.profile k = w.profile k) (howed : ∀ r, w'.owed r = w.owed r) {events : List Event}
    (hevents : ∀ e ∈ events, e.price = 0) : w'.credit k = w.credit k + earned k events := by
  rw [credit_congr hknows hp fun r _ => howed r, earned,
    total_eq_zero _ _ fun e he _ => hevents e he, add_zero]

theorem credit_submit {node : Nat}
    (hknows : ∀ r', (w.submit r node).Knows r' ↔ w.Knows r') :
    (w.submit r node).credit k = w.credit k + earned k (w.noted (.submit r node)) := by
  refine credit_unpaid hknows (profile_submit w k r node) (fun r' => owed_submit w r' r node)
    fun e he => ?_
  rw [World.noted] at he
  split at he
  · obtain rfl := List.mem_singleton.1 he
    rfl
  · cases he
  · cases he

theorem credit_iterate {c : CallKey} (hknows : ∀ r, (w.iterate c).Knows r ↔ w.Knows r) :
    (w.iterate c).credit k = w.credit k + earned k (w.noted (.iterate c)) := by
  refine credit_unpaid hknows (profile_iterate w k c) (fun r => owed_iterate w r c) fun e he => ?_
  rw [World.noted] at he
  split at he
  · obtain rfl := List.mem_singleton.1 he
    rfl
  · cases he

theorem credit_settle {c : CallKey} {o : Outcome}
    (hc : (w.call? c).isSome → c.run.isOutermost k → w.IsOpen c.run) :
    (w.settle c o).credit k = w.credit k + earned k (w.noted (.settle c o)) := by
  rw [settle, World.noted]
  cases hy : w.call? c with
  | none => exact (add_zero _).symm
  | some y =>
    obtain ⟨p, l⟩ := y
    cases p with
    | awaited => exact credit_finish (hc (by simp [hy])) o false
    | entered => exact (credit_congr (by simp) (by simp) (by simp)).trans (add_zero _).symm
    | settled => exact (add_zero _).symm

theorem credit_returned {c : CallKey}
    (hc : (w.call? c).isSome → c.run.isOutermost k → w.IsOpen c.run) :
    (w.returned c).credit k = w.credit k + earned k (w.noted (.returned c)) := by
  have hwaits : ∀ y, ((w.hold c.run).setCall c y).credit k = w.credit k := fun y => by
    obtain ⟨run, hb⟩ := hold_cases w c.run
    exact credit_congr (fun r => (knows_setCall ..).trans (hb.knows r)) (by simp [profile_hold])
      (by simp)
  rw [returned, World.noted]
  cases hy : w.call? c with
  | none => exact (add_zero _).symm
  | some y =>
    obtain ⟨p, l⟩ := y
    cases p with
    | settled o => exact credit_finish (hc (by simp [hy])) o true
    | entered | awaited => exact (hwaits _).trans (add_zero _).symm

theorem credit_call (b : Backend α σ ι) (c : CallKey) :
    (w.call b c).credit k = w.credit k + earned k (w.noted (.call c)) := by
  have hprofile := @profile_call _ _ _ k { ops := [] } w b c
  rw [World.noted] at hprofile ⊢
  cases hop : w.operation? c with
  | none =>
    rw [World.call, hop]
    exact (add_zero _).symm
  | some op =>
    obtain ⟨x, hx, -⟩ := Option.bind_eq_some_iff.1 hop
    obtain ⟨opening, l, -, hb⟩ := call_cases (b := b) (knows_of_run? hx) hop
    simp only [hop, Option.isSome_some, if_true, gain_singleton] at hprofile
    simp only [Option.isSome_some, if_true, earned_singleton]
    cases hk : c.run.isOutermost k with
    | true =>
      simp only [Event.run, hk, if_true] at hprofile ⊢
      exact credit_of_counted hb.knows hk (knows_of_run? hx) hprofile (by simp)
    | false =>
      simp only [Event.run, hk, Bool.false_eq_true, if_false, grown_zero, Option.map_id_fun, id,
        add_zero] at hprofile ⊢
      exact credit_congr hb.knows hprofile (by simp)

theorem credit_settleRun (b : Backend α σ ι) {o : Outcome} (hr : r.isOutermost k → w.owed r = 0) :
    (w.settleRun b r o).credit k = w.credit k := by
  obtain ⟨items, run, call, hb, -⟩ := settleRun_cases (b := b) w r o
  refine credit_congr hb.knows (profile_settleRun w k b r o) fun r' hr' => ?_
  by_cases heq : r' = r
  · subst heq
    have hnone : (w.settleRun b r' o).run? r' = none := by
      have hscope : r'.scope = [] := by rw [RunKey.eq_of_isOutermost hr']
      rw [(settleRun_outermost (RunKey.caller?_eq_none.2 hscope) o).run, Function.update_self]
    rw [owed_eq hnone, hr hr']
  · exact owed_settleRun_of_ne heq o

theorem executionsOn_push (w : World α σ ι) (i k : Nat) (hi : (w.hosts[i]?).isSome) :
    (w.modifyHost i fun h => { h with executions := h.executions.push {} }).executionsOn k =
      w.executionsOn k + if i = k then 1 else 0 := by
  obtain ⟨h, hh⟩ := Option.isSome_iff_exists.1 hi
  simp only [executionsOn, modifyHost, Array.getElem?_modify]
  by_cases hik : i = k
  · subst hik
    simp [hh]
  · simp [hik]

/-- An execution that has not started owes nothing. -/
theorem credit_push (w : World α σ ι) {i : Nat} {h : Host α} (hi : w.hosts[i]? = some h) (k : Nat) :
    (w.modifyHost i fun h => { h with executions := h.executions.push {} }).credit k =
      w.credit k := by
  have howed : ∀ r, (w.modifyHost i fun h => { h with
      executions := h.executions.push {} }).owed r = w.owed r := fun r => by
    unfold owed run?
    rw [Crew.execution?_push w i hi]
    split
    case isTrue heq =>
      have hnone : w.execution? r.host r.execution = none := by
        simp [execution?, heq.1, heq.2, hi]
      rw [hnone]
      rfl
    case isFalse => rfl
  have hlast : w.owed ⟨k, w.executionsOn k, []⟩ = 0 := owed_eq (by
    by_contra hne
    obtain ⟨x, hx⟩ := Option.ne_none_iff_exists'.1 hne
    exact absurd (knows_iff.1 (knows_of_run? hx)) (Nat.lt_irrefl _))
  have hcounters : (w.modifyHost i fun h => { h with
      executions := h.executions.push {} }).counters k = w.counters k := by
    rw [counters, profile_modifyHost w k i fun xs => xs.push {}]
    rfl
  simp only [credit, hcounters, executionsOn_push w i k (by simp [hi]), howed]
  split
  · rw [Finset.sum_range_succ, hlast, Nat.add_zero]
  · rfl

end Credit

end World

namespace Crew

variable [Leaf α] {b : Backend α σ ι} {s t s₀ : Crew α σ ι} {r : RunKey} {k : Nat}
  {region : Program α} {ch : Choice σ ι} {cs : List (Choice σ ι)}

/-- A host executes its program by its graph. -/
structure ByGraph (s : Crew α σ ι) (k : Nat) (region : Program α) : Prop where
  program : s.world.program? k = some region
  concurrent : (s.world.runnerOf? k).isSome
  unordered : region.graph.isSequential = false

/-- So its outermost runs go by their graph. -/
theorem ByGraph.scheduled (hk : s.ByGraph k region) (h : Reachable b s) (hr : r.isOutermost k)
    {x : Run α} (hx : s.world.run? r = some x) : ∃ st u holders fin,
      (s.view r).Scheduled region st u holders fin ∧ x = ⟨region, .scheduled u holders⟩ := by
  have hscope : r.scope = [] := by rw [RunKey.eq_of_isOutermost hr]
  have hhost : r.host = k := by rw [RunKey.eq_of_isOutermost hr]
  have hx' : (s.view r).run = some x := hx
  have hregion : ∀ {region'}, (s.view r).regions = [region'] → region' = region :=
    fun {region'} hregions => by
      have hmem : (r, region') ∈ s.begun := mem_begun_iff.2 (by simp [hregions])
      have := h.program (.inl hmem) hscope
      rw [hhost, hk.program] at this
      exact (Option.some.inj this).symm
  cases h.sound.run r with
  | idle hv | empty hv =>
    rw [hv.run] at hx'
    cases hx'
  | ordered hv =>
    have hconcurrent : (s.world.runnerOf? r.host).isSome := by
      rw [hhost]
      exact hk.concurrent
    have hsequential := hv.ordered hconcurrent
    rw [hregion hv.regions, hk.unordered] at hsequential
    cases hsequential
  | @scheduled region' st u holders fin hv =>
    obtain rfl := hregion hv.regions
    exact ⟨st, u, holders, fin, hv, (hv.eq_of_run_eq hx').1⟩

theorem ByGraph.isOpen (hk : s.ByGraph k region) (h : Reachable b s) (hr : r.isOutermost k)
    (hx : (s.world.run? r).isSome) {j : Nat} (hmoves : ∀ {x : NodeState},
      x.Shown ((s.view r).progress j) ((s.view r).marks j) → x.isStill = false) :
    s.world.IsOpen r := by
  obtain ⟨x, hx⟩ := Option.isSome_iff_exists.1 hx
  obtain ⟨st, u, holders, fin, hv, rfl⟩ := hk.scheduled h hr hx
  exact ⟨region, u, holders, hx, hv.unfinished (hv.fin_eq_none (hmoves (hv.shown j)))⟩

/-- A run that has lost no task owes nothing when it is about to be settled. -/
theorem ByGraph.owed_eq_zero (hk : s.ByGraph k region) (h : Reachable b s) (hr : r.isOutermost k)
    (hkept : ∀ j, .dropped ⟨r, j⟩ ∉ s.log) {o : Outcome}
    (ho : 0 < (s.view r).count (.closing o)) : s.world.owed r = 0 := by
  cases hx : s.world.run? r with
  | none => exact World.owed_eq hx
  | some x =>
    obtain ⟨st, u, holders, fin, hv, rfl⟩ := hk.scheduled h hr hx
    obtain rfl : fin = some o := by
      by_contra hne
      have := hv.closing o
      rw [if_neg hne] at this
      omega
    have hdropped : ∀ j, st j ≠ .dropped := fun j hj => by
      have := (hv.shown j).fixed .dropped rfl
      rw [marks_dropped, hj, List.count_eq_zero_of_not_mem (hkept j)] at this
      cases this
    rw [World.owed_scheduled hx, if_pos (hv.tracks.isComplete_iff.2 fun j hj =>
      hv.isDone_of_still (hv.still o rfl) hdropped (by rwa [Region.length_footprints] at hj))]

theorem ByGraph.isOpen_of_call (hk : s.ByGraph k region) (h : Reachable b s) {c : CallKey}
    (hc : (s.world.call? c).isSome) (hr : c.run.isOutermost k) : s.world.IsOpen c.run := by
  obtain ⟨y, hy⟩ := Option.isSome_iff_exists.1 hc
  obtain ⟨-, op, hop⟩ := h.sound.operation_of_call hy
  obtain ⟨x, hx, -⟩ := Option.bind_eq_some_iff.1 hop
  refine hk.isOpen h hr (by simp [hx]) (j := c.node) fun {x} hshown => ?_
  have hp := hshown.progress
  rw [show (s.view c.run).progress c.node = some y.progress by simp [view, hy]] at hp
  cases x <;> simp_all [NodeState.progress?, NodeState.isStill]

theorem ByGraph.credit_start (hk : s.ByGraph k region) (h : Reachable b s) {i : Nat}
    {region' : Program α} {rest : List (Item α ι)}
    (hi : s.threads[i]? = some (.start r region' :: rest)) :
    ((s.seenBy rest).start r region').credit k =
      s.world.credit k + earned k (s.world.noted (.start r region')) := by
  have hs := h.sound
  refine World.credit_start (w := s.seenBy rest) (hs.known r (hasBegun_of_head hi)) fun hr => ?_
  have hhost : r.host = k := by rw [RunKey.eq_of_isOutermost hr]
  have hprogram := h.program (.inr ⟨_, mem_threads hi, List.mem_cons_self⟩ : s.HasRegion r region')
    (by rw [RunKey.eq_of_isOutermost hr])
  rw [hhost, hk.program] at hprogram
  refine ⟨(hs.idle_of_start hi).run, ?_, Option.some.inj hprogram ▸ hk.unordered⟩
  rw [hhost]
  exact hk.concurrent

/-- What one item brings about. -/
theorem ByGraph.credit_after (hk : s.ByGraph k region) (h : Reachable b s) {i : Nat}
    {item : Item α ι} {rest : List (Item α ι)} (hi : s.threads[i]? = some (item :: rest))
    {w : World α σ ι} (hw : (s.seenBy (item :: rest)).step? b = some w)
    (hkept : ∀ c, c.run.isOutermost k → .dropped c ∉ s.log) :
    w.credit k = s.world.credit k + earned k (s.world.noted item) := by
  have hcall : ∀ c, (s.world.call? c).isSome → c.run.isOutermost k →
      (s.seenBy rest).IsOpen c.run := fun c => hk.isOpen_of_call h
  obtain ⟨items, tasks, run, call, hb, -⟩ := World.step_cases rfl hw fun r region hr =>
    h.sound.known r (hasBegun_of_head (hr ▸ hi))
  have hknows : ∀ r, w.Knows r ↔ s.world.Knows r := hb.knows
  obtain rfl := Option.some.inj hw
  cases item with
  | start r region' => exact hk.credit_start h hi
  | visit r node =>
    have hturn : 0 < (s.view r).marks node .turn := count_pos_of_head hi rfl
    refine World.credit_visit (w := s.seenBy rest) fun hr hx =>
      hk.isOpen h hr hx (j := node) fun {x} hshown => ?_
    rw [hshown.eq_due (by omega)]
    rfl
  | submit r node => exact World.credit_submit (w := s.seenBy rest) hknows
  | release r =>
    exact World.credit_unpaid hknows (World.profile_release (s.seenBy rest) k r)
      (fun r' => World.owed_release (s.seenBy rest) r' r) (by simp [World.noted])
  | call c => exact World.credit_call (w := s.seenBy rest) b c
  | returned c => exact World.credit_returned (w := s.seenBy rest) (hcall c)
  | settle c o => exact World.credit_settle (w := s.seenBy rest) (hcall c)
  | settleRun r o =>
    have hpaid := World.credit_settleRun (w := s.seenBy rest) (k := k) (o := o) b fun hr =>
      hk.owed_eq_zero h hr (fun j => hkept _ hr) (count_pos_of_head hi rfl)
    refine hpaid.trans ?_
    rw [World.noted, earned_singleton]
    split <;> exact (add_zero _).symm
  | iterate c => exact World.credit_iterate (w := s.seenBy rest) hknows
  | iterated c =>
    exact World.credit_unpaid hknows (World.profile_iterated (s.seenBy rest) k b c)
      (fun r' => World.owed_iterated (s.seenBy rest) r' b c) (by simp [World.noted])
  | effect e =>
    cases e with
    | settle c o => exact World.credit_settle (w := s.seenBy rest) (hcall c)
    | work x => exact World.credit_unpaid hknows rfl (fun _ => rfl) (by simp [World.noted])
    | submit runner x =>
      refine World.credit_unpaid hknows ?_ (fun r => ?_) (by simp [World.noted])
      · simp only [World.carryOut]
        split <;> rfl
      · simp only [World.carryOut]
        split <;> rfl

/-- A move grows the credit of a host that executes its program by its graph by what it notes. -/
theorem Move.credit (hm : Move b ch s t) (h : Reachable b s) (hk : s.ByGraph k region)
    (hkept : ∀ c, c.run.isOutermost k → .dropped c ∉ s.log) : ∃ new, t.log = s.log ++ new ∧
      t.world.credit k = s.world.credit k + earned k new := by
  have hnone : ∀ {t : Crew α σ ι} {events : List Event}, t.log = s.log ++ events →
      (∀ e ∈ events, ∃ c, e = .dropped c) → t.world.credit k = s.world.credit k →
      ∃ new, t.log = s.log ++ new ∧ t.world.credit k = s.world.credit k + earned k new :=
    fun {t events} hlog hevents hworld => ⟨events, hlog, by
      have hzero : earned k events = 0 := total_eq_zero _ _ fun e he _ => by
        obtain ⟨c, rfl⟩ := hevents e he
        rfl
      rw [hworld, hzero, add_zero]⟩
  cases hm with
  | @act _ i item rest w hi hw => exact ⟨_, rfl, hk.credit_after (w := w) h hi hw hkept⟩
  | take => exact hnone (List.append_nil _).symm (by simp) rfl
  | @drop _ _ _ _ task =>
    cases task with
    | visit r j => exact hnone rfl (by simp) rfl
    | work => exact hnone (List.append_nil _).symm (by simp) rfl
  | outside change => exact hnone (List.append_nil _).symm (by simp) rfl
  | @execute _ i host hi =>
    exact hnone (List.append_nil _).symm (by simp) (World.credit_push s.world hi k)

theorem Move.byGraph_iff (hm : Move b ch s t) (h : Reachable b s) :
    t.ByGraph k region ↔ s.ByGraph k region := by
  have hrunner := hm.runner h.sound
  exact ⟨fun hk => ⟨hm.program? k ▸ hk.program, hrunner ▸ hk.concurrent, hk.unordered⟩,
    fun hk => ⟨(hm.program? k).trans hk.program, hrunner.symm ▸ hk.concurrent, hk.unordered⟩⟩

/-- The credit of a host that executes its program by its graph is worth all that has happened on
it, as long as no task of its outermost runs is lost. -/
theorem Follows.credit {w : World α σ ι} (hw : w.IsFresh) (hf : Follows b { world := w } cs s)
    (hk : s.ByGraph k region) (hkept : ∀ c, c.run.isOutermost k → .dropped c ∉ s.log) :
    s.world.credit k = w.counters k + earned k s.log := by
  induction hf with
  | nil =>
    have hzero : w.executionsOn k = 0 := by
      unfold World.executionsOn
      cases hx : w.hosts[k]? with
      | none => rfl
      | some x => simp [hw.executions x (Array.mem_of_getElem? hx)]
    rw [World.credit, hzero]
    rfl
  | snoc hf hm ih =>
    have hs := hf.reachable hw
    have hk' := (hm.byGraph_iff hs).1 hk
    obtain ⟨events, hlog, -⟩ := hm.log
    have hkept' := fun c hc hmem => hkept c hc (hlog ▸ List.mem_append_left _ hmem)
    obtain ⟨new, hnew, hcredit⟩ := hm.credit hs hk' hkept'
    rw [hcredit, ih hk' hkept', hnew, earned_append, add_assoc]

end Crew

end OpFlow.Machine
