import Mathlib.Algebra.BigOperators.Group.Finset.Piecewise
import OpFlow.Proofs.Machine.Unchecked

/-!
What the counters of a host count. Each event of the log is worth something to the counters of the
execution that it belongs to; where a host executes its program in order, its counters grow by what
the events of its executions are worth, and by nothing else.
-/
namespace OpFlow.Machine

variable {α σ ι : Type}

attribute [ext] Stats

namespace Stats

instance : Zero Stats := ⟨{}⟩

instance : Add Stats :=
  ⟨fun x y => ⟨x.executions + y.executions, x.sequential + y.sequential, x.launched + y.launched,
    x.failed + y.failed, x.skipped + y.skipped⟩⟩

instance : AddCommMonoid Stats where
  add_assoc _ _ _ := Stats.ext (Nat.add_assoc ..) (Nat.add_assoc ..) (Nat.add_assoc ..)
    (Nat.add_assoc ..) (Nat.add_assoc ..)
  zero_add _ := Stats.ext (Nat.zero_add _) (Nat.zero_add _) (Nat.zero_add _) (Nat.zero_add _)
    (Nat.zero_add _)
  add_zero _ := rfl
  add_comm _ _ := Stats.ext (Nat.add_comm ..) (Nat.add_comm ..) (Nat.add_comm ..)
    (Nat.add_comm ..) (Nat.add_comm ..)
  nsmul := nsmulRec

variable (x y : Stats)

@[simp] theorem executions_zero : (0 : Stats).executions = 0 := rfl
@[simp] theorem sequential_zero : (0 : Stats).sequential = 0 := rfl
@[simp] theorem launched_zero : (0 : Stats).launched = 0 := rfl
@[simp] theorem failed_zero : (0 : Stats).failed = 0 := rfl
@[simp] theorem skipped_zero : (0 : Stats).skipped = 0 := rfl
@[simp] theorem executions_add : (x + y).executions = x.executions + y.executions := rfl
@[simp] theorem sequential_add : (x + y).sequential = x.sequential + y.sequential := rfl
@[simp] theorem launched_add : (x + y).launched = x.launched + y.launched := rfl
@[simp] theorem failed_add : (x + y).failed = x.failed + y.failed := rfl
@[simp] theorem skipped_add : (x + y).skipped = x.skipped + y.skipped := rfl

end Stats

/-- The run that an event is noted of. -/
def Event.run : Event → RunKey
  | .started r | .resolved r _ => r
  | .launched c | .skipped c | .dropped c | .ended c _ | .turned c _ => c.run

/-- What an event is worth to the counters, where a region is executed in order. -/
def Event.worth (region : Program α) : Event → Stats
  | .started _ => if region.ops.isEmpty then 0 else { executions := 1, sequential := 1 }
  | .launched _ => { launched := 1 }
  | .ended c (.error _) => { failed := 1, skipped := region.ops.length - c.node - 1 }
  | .ended _ (.ok ()) | .skipped _ | .dropped _ | .turned _ _ | .resolved _ _ => 0

def total (worth : Event → Stats) (p : Event → Bool) (log : List Event) : Stats :=
  ((log.filter p).map worth).sum

section Total

variable (worth : Event → Stats) (p : Event → Bool)

@[simp] theorem total_nil : total worth p [] = 0 := rfl

theorem total_append (log log' : List Event) :
    total worth p (log ++ log') = total worth p log + total worth p log' := by
  simp [total]

theorem total_singleton (e : Event) : total worth p [e] = if p e then worth e else 0 := by
  cases h : p e <;> simp [total, h]

theorem total_eq_zero {log : List Event} (h : ∀ e ∈ log, p e → worth e = 0) :
    total worth p log = 0 := List.sum_eq_zero fun x hx => by
  obtain ⟨e, he, rfl⟩ := List.mem_map.1 hx
  exact h e (List.mem_filter.1 he).1 (List.mem_filter.1 he).2

end Total

def tally (region : Program α) (r : RunKey) (log : List Event) : Stats :=
  ((log.filter fun e => e.run = r).map fun e => e.worth region).sum

theorem tally_append (region : Program α) (r : RunKey) (log log' : List Event) :
    tally region r (log ++ log') = tally region r log + tally region r log' := total_append ..

def RunKey.isOutermost (r : RunKey) (k : Nat) : Bool := r.scope.isEmpty && r.host == k

def gain (region : Program α) (k : Nat) (log : List Event) : Stats :=
  ((log.filter fun e => e.run.isOutermost k).map fun e => e.worth region).sum

@[simp] theorem gain_nil (region : Program α) (k : Nat) : gain region k [] = 0 := rfl

theorem gain_append (region : Program α) (k : Nat) (log log' : List Event) :
    gain region k (log ++ log') = gain region k log + gain region k log' := total_append ..

theorem gain_singleton (region : Program α) (k : Nat) (e : Event) :
    gain region k [e] = if e.run.isOutermost k then e.worth region else 0 := total_singleton ..

theorem RunKey.eq_of_isOutermost {r : RunKey} {k : Nat} (h : r.isOutermost k) :
    r = ⟨k, r.execution, []⟩ := by
  obtain ⟨host, execution, scope⟩ := r
  simp only [isOutermost, Bool.and_eq_true, List.isEmpty_iff, beq_iff_eq] at h
  rw [h.1, h.2]

/-- What happens on a host happens in its executions. -/
theorem total_eq_sum (worth : Event → Stats) (k : Nat) {n : Nat} {log : List Event}
    (h : ∀ e ∈ log, e.run.isOutermost k → worth e ≠ 0 → e.run.execution < n) :
    total worth (fun e => e.run.isOutermost k) log =
      ∑ e ∈ Finset.range n, total worth (fun e' => e'.run = ⟨k, e, []⟩) log := by
  induction log with
  | nil => simp
  | cons e log ih =>
    have hone : total worth (fun e => e.run.isOutermost k) [e] =
        ∑ x ∈ Finset.range n, total worth (fun e' => e'.run = ⟨k, x, []⟩) [e] := by
      simp only [total_singleton, decide_eq_true_eq]
      cases hk : e.run.isOutermost k with
      | false =>
        refine (Finset.sum_eq_zero fun x _ => if_neg fun hx => ?_).symm
        simp [hx, RunKey.isOutermost] at hk
      | true =>
        have hrun := RunKey.eq_of_isOutermost hk
        have hiff : ∀ x, e.run = ⟨k, x, []⟩ ↔ e.run.execution = x := fun x =>
          ⟨fun hx => by rw [hx], fun hx => by rw [hrun, hx]⟩
        simp only [hiff, Finset.sum_ite_eq, Finset.mem_range, if_true]
        by_cases hzero : worth e = 0
        · simp [hzero]
        · rw [if_pos (h e List.mem_cons_self hk hzero)]
    have hrest := ih fun e' he' => h e' (List.mem_cons_of_mem _ he')
    rw [← List.singleton_append, total_append, hone, hrest, ← Finset.sum_add_distrib]
    exact Finset.sum_congr rfl fun x _ => (total_append ..).symm

theorem gain_eq_sum (region : Program α) (k : Nat) {n : Nat} {log : List Event}
    (h : ∀ e ∈ log, e.run.isOutermost k → e.worth region ≠ 0 → e.run.execution < n) :
    gain region k log = ∑ e ∈ Finset.range n, tally region ⟨k, e, []⟩ log :=
  total_eq_sum _ k h

namespace World

def profile (w : World α σ ι) (k : Nat) : Option (Program α × Stats) :=
  w.hosts[k]?.map fun h => (h.program, h.stats)

def grown (d : Stats) (x : Program α × Stats) : Program α × Stats := (x.1, x.2 + d)

@[simp] theorem grown_zero : grown (α := α) 0 = id := rfl

section Profile

variable (w : World α σ ι) (k : Nat)

theorem profile_modifyHost (i : Nat) (f : Array (Execution α) → Array (Execution α)) :
    (w.modifyHost i fun h => { h with executions := f h.executions }).profile k = w.profile k := by
  simp only [profile, modifyHost, Array.getElem?_modify]
  split
  · subst_vars
    cases w.hosts[i]? <;> rfl
  · rfl

theorem profile_modifyExecution (r : RunKey) (f : Execution α → Execution α) :
    (w.modifyExecution r f).profile k = w.profile k :=
  profile_modifyHost w k r.host fun xs => xs.modify r.execution f

@[simp] theorem profile_push (items : List (Item α ι)) : (w.push items).profile k = w.profile k :=
  rfl
@[simp] theorem profile_setRunner (i : Nat) (q : Runner (Task ι)) :
    (w.setRunner i q).profile k = w.profile k := rfl
@[simp] theorem profile_setRun (r : RunKey) (x : Run α) :
    (w.setRun r x).profile k = w.profile k := profile_modifyExecution ..
@[simp] theorem profile_eraseRun (r : RunKey) : (w.eraseRun r).profile k = w.profile k :=
  profile_modifyExecution ..
@[simp] theorem profile_setCall (c : CallKey) (y : Call) :
    (w.setCall c y).profile k = w.profile k := profile_modifyExecution ..
@[simp] theorem profile_eraseCall (c : CallKey) : (w.eraseCall c).profile k = w.profile k :=
  profile_modifyExecution ..

theorem profile_count (r : RunKey) (f : Stats → Stats) : (w.count r f).profile k =
    if r.isOutermost k then (w.profile k).map (Prod.map id f) else w.profile k := by
  unfold count RunKey.isOutermost
  cases r.scope.isEmpty with
  | false => simp
  | true =>
    simp only [profile, modifyHost, Array.getElem?_modify, if_true, Bool.true_and, beq_iff_eq]
    split
    · subst_vars
      cases w.hosts[r.host]? <;> rfl
    · rfl

theorem profile_hold (r : RunKey) : (w.hold r).profile k = w.profile k := by
  rw [hold]
  split <;> simp

theorem profile_submit (r : RunKey) (node : Nat) : (w.submit r node).profile k = w.profile k := by
  rw [submit]
  split <;> simp [profile_hold]

theorem profile_release (r : RunKey) : (w.release r).profile k = w.profile k := by
  rw [release]
  repeat' split
  all_goals simp

theorem profile_advance (b : Backend α σ ι) (c : CallKey) (y : Call) (l : LoopState) (o : Outcome) :
    (w.advance b c y l o).profile k = w.profile k := by
  cases o with
  | error e => rfl
  | ok u =>
    rw [advance]
    repeat' split
    all_goals simp

theorem profile_iterate (c : CallKey) : (w.iterate c).profile k = w.profile k := by
  rw [iterate]
  repeat' split
  all_goals simp

theorem profile_iterated (b : Backend α σ ι) (c : CallKey) :
    (w.iterated b c).profile k = w.profile k := by
  rw [iterated]
  repeat' split
  all_goals simp [profile_advance]

theorem profile_settleRun (b : Backend α σ ι) (r : RunKey) (o : Outcome) :
    (w.settleRun b r o).profile k = w.profile k := by
  rw [settleRun]
  repeat' split
  all_goals simp [profile_advance, profile_modifyExecution]

end Profile

structure TakesInOrder [Leaf α] (w : World α σ ι) (k : Nat) (region : Program α) : Prop where
  ordered : (w.runnerOf? k).isSome → region.graph.isSequential
  run : ∀ r x, r.isOutermost k → w.run? r = some x → x = ⟨region, .ordered⟩
  call : ∀ c y, w.call? c = some y → (w.run? c.run).isSome

section Step

variable [Leaf α] {w : World α σ ι} {k : Nat} {region : Program α}

omit [Leaf α] in
theorem profile_completeNode_of_not (w : World α σ ι) {r : RunKey} (hr : r.isOutermost k = false)
    (region' : Program α) (s : Schedule) (holders node : Nat) (failed atOnce : Bool) :
    (w.completeNode r region' s holders node failed atOnce).profile k = w.profile k := by
  rw [completeNode]
  dsimp only
  split <;> simp [profile_count, hr]

theorem profile_start_of_not (w : World α σ ι) {r : RunKey} (hr : r.isOutermost k = false)
    (region' : Program α) : (w.start r region').profile k = w.profile k := by
  rw [World.start]
  dsimp only
  repeat' split
  all_goals simp [profile_count, hr]

theorem profile_start (h : w.TakesInOrder k region) {r : RunKey} {region' : Program α}
    (hr : r.isOutermost k → region' = region) : (w.start r region').profile k =
      (w.profile k).map (grown (gain region k [.started r])) := by
  rw [gain_singleton]
  cases hk : r.isOutermost k with
  | true =>
    obtain rfl := hr hk
    have hhost : r.host = k := by
      rw [RunKey.eq_of_isOutermost hk]
    have hnot : ((w.runnerOf? r.host).isSome && !region'.graph.isSequential) = false := by
      cases hrunner : (w.runnerOf? r.host).isSome
      · rfl
      · simp [h.ordered (hhost ▸ hrunner)]
    simp only [Event.run, hk, if_true, Event.worth]
    rw [World.start]
    split
    case isTrue => simp
    case isFalse =>
      simp only [hnot, Bool.false_eq_true, if_false, profile_push, profile_setRun, profile_count, hk,
        if_true]
      rfl
  | false =>
    rw [profile_start_of_not w hk]
    simp [Event.run, hk]

omit [Leaf α] in
theorem profile_finish_of_not (w : World α σ ι) {c : CallKey} (hc : c.run.isOutermost k = false)
    (o : Outcome) (atOnce : Bool) : (w.finish c o atOnce).profile k = w.profile k := by
  rw [World.finish]
  dsimp only
  repeat' split
  all_goals simp [profile_completeNode_of_not _ hc, profile_count, hc]

/-- The end of an operation grows the counters by what it is worth. -/
theorem profile_finish (h : w.TakesInOrder k region) {c : CallKey} (hc : (w.run? c.run).isSome)
    (o : Outcome) (atOnce : Bool) : (w.finish c o atOnce).profile k =
      (w.profile k).map (grown (gain region k [.ended c o])) := by
  rw [gain_singleton]
  cases hk : c.run.isOutermost k with
  | true =>
    obtain ⟨⟨region', mode⟩, hrun⟩ := Option.isSome_iff_exists.1 hc
    obtain ⟨rfl, rfl⟩ := Run.mk.inj (h.run _ _ hk hrun)
    rw [World.finish, run?_eraseCall, hrun]
    cases o with
    | error e =>
      simp only [Event.run, hk, profile_push, profile_count, profile_eraseCall, if_true]
      rfl
    | ok u =>
      simp only [Event.run, hk, Event.worth, if_true, grown_zero, Option.map_id_fun, id]
      split <;> simp
  | false =>
    rw [profile_finish_of_not w hk]
    simp [Event.run, hk]

theorem profile_settle (h : w.TakesInOrder k region) (c : CallKey) (o : Outcome) :
    (w.settle c o).profile k =
      (w.profile k).map (grown (gain region k (w.noted (.settle c o)))) := by
  rw [World.settle, World.noted]
  cases hc : w.call? c with
  | none => simp
  | some y =>
    obtain ⟨p, l⟩ := y
    cases p with
    | awaited => exact profile_finish h (h.call c _ hc) o false
    | entered | settled => simp

theorem profile_returned (h : w.TakesInOrder k region) (c : CallKey) :
    (w.returned c).profile k =
      (w.profile k).map (grown (gain region k (w.noted (.returned c)))) := by
  rw [World.returned, World.noted]
  cases hc : w.call? c with
  | none => simp
  | some y =>
    obtain ⟨p, l⟩ := y
    cases p with
    | settled o => exact profile_finish h (h.call c _ hc) o true
    | entered | awaited => simp [profile_hold]

omit [Leaf α] in
/-- The call of an operation is worth one operation. -/
theorem profile_call (w : World α σ ι) (b : Backend α σ ι) (c : CallKey) :
    (w.call b c).profile k = (w.profile k).map (grown (gain region k (w.noted (.call c)))) := by
  rw [World.call, World.noted]
  cases hop : w.operation? c with
  | none => simp
  | some op =>
    have hcount : (w.noteCall c op).profile k =
        (w.profile k).map (grown (gain region k [.launched c])) := by
      have := profile_count w k c.run fun s => { s with launched := s.launched + 1 }
      rw [gain_singleton]
      refine Eq.trans this ?_
      cases hk : c.run.isOutermost k with
      | true =>
        simp only [Event.run, hk, if_true]
        rfl
      | false => simp [Event.run, hk]
    have hset : ∀ y, ((w.noteCall c op).setCall c y).profile k =
        (w.profile k).map (grown (gain region k [.launched c])) := fun y => by
      rw [profile_setCall, hcount]
    cases op with
    | leaf info a =>
      dsimp only [Option.isSome_some, if_true]
      split <;> exact hset {}
    | call info body => exact hset {}
    | conditional info index type branches =>
      dsimp only [Option.isSome_some, if_true]
      split
      · exact hset {}
      · split <;> exact hset {}
    | loop info predicate condition body trips => exact hset _

theorem profile_visit (h : w.TakesInOrder k region) (r : RunKey) (node : Nat) :
    (w.visit r node).profile k =
      (w.profile k).map (grown (gain region k (w.noted (.visit r node)))) := by
  have hgain : gain region k (w.noted (.visit r node)) = 0 := by
    rw [World.noted]
    split
    · split
      · rw [gain_singleton]
        split <;> rfl
      · rfl
    · rfl
  rw [hgain, grown_zero, Option.map_id_fun, id, World.visit]
  split
  case h_1 region' s holders hrun =>
    have hk : r.isOutermost k = false := by
      by_contra hk
      have := h.run _ _ (by simpa using hk) hrun
      simp at this
    split
    · rw [profile_completeNode_of_not _ hk]
    · split
      · rfl
      · simp
  case h_2 => rfl

/-- A step grows the counters of a host whose outermost runs are in order by what is noted of it. -/
theorem profile_step (h : w.TakesInOrder k region) {b : Backend α σ ι} {w' : World α σ ι}
    {item : Item α ι} {agenda : List (Item α ι)} (hw : w.agenda = item :: agenda)
    (hstep : w.step? b = some w')
    (hstart : ∀ r region', item = .start r region' → r.isOutermost k → region' = region) :
    w'.profile k = (w.profile k).map (grown (gain region k (w.noted item))) := by
  have h' : ({ w with agenda } : World α σ ι).TakesInOrder k region := ⟨h.ordered, h.run, h.call⟩
  have hzero : ∀ {w' : World α σ ι} {events : List Event}, w'.profile k = w.profile k →
      (∀ e ∈ events, e.worth region = 0) →
        w'.profile k = (w.profile k).map (grown (gain region k events)) :=
    fun {w' events} hw' hevents => by
      have hsum : gain region k events = 0 := total_eq_zero _ _ fun e he _ => hevents e he
      rw [hw', hsum, grown_zero, Option.map_id_fun, id]
  rw [step?, hw] at hstep
  obtain rfl := Option.some.inj hstep
  cases item with
  | start r region' => exact profile_start h' (hstart r region' rfl)
  | visit r node => exact profile_visit h' r node
  | submit r node =>
    refine hzero (profile_submit _ k r node) fun e he => ?_
    rw [World.noted] at he
    split at he
    · obtain rfl := List.mem_singleton.1 he
      rfl
    · cases he
    · cases he
  | release r => exact hzero (profile_release _ k r) (by simp [World.noted])
  | call c => exact profile_call _ b c
  | returned c => exact profile_returned h' c
  | settle c o => exact profile_settle h' c o
  | settleRun r o =>
    exact hzero (profile_settleRun _ k b r o) (by simp [World.noted, Event.worth])
  | iterate c =>
    refine hzero (profile_iterate _ k c) fun e he => ?_
    rw [World.noted] at he
    split at he
    · obtain rfl := List.mem_singleton.1 he
      rfl
    · cases he
  | iterated c => exact hzero (profile_iterated _ k b c) (by simp [World.noted])
  | effect e =>
    cases e with
    | settle c o => exact profile_settle h' c o
    | work i => exact hzero rfl (by simp [World.noted])
    | submit runner i =>
      refine hzero ?_ (by simp [World.noted])
      simp only [carryOut]
      split <;> rfl

end Step

def program? (w : World α σ ι) (k : Nat) : Option (Program α) := w.hosts[k]?.map Host.program

section Program

variable (w : World α σ ι) (k : Nat)

theorem program?_modifyHost (i : Nat) (f : Host α → Host α) (hf : ∀ h, (f h).program = h.program) :
    (w.modifyHost i f).program? k = w.program? k := by
  simp only [program?, modifyHost, Array.getElem?_modify]
  split
  · subst_vars
    cases w.hosts[i]? <;> simp [hf]
  · rfl

@[simp] theorem program?_modifyExecution (r : RunKey) (f : Execution α → Execution α) :
    (w.modifyExecution r f).program? k = w.program? k :=
  program?_modifyHost w k r.host (fun h => { h with executions := h.executions.modify r.execution f })
    fun _ => rfl
@[simp] theorem program?_push (items : List (Item α ι)) : (w.push items).program? k = w.program? k :=
  rfl
@[simp] theorem program?_setRunner (i : Nat) (q : Runner (Task ι)) :
    (w.setRunner i q).program? k = w.program? k := rfl
@[simp] theorem program?_setRun (r : RunKey) (x : Run α) :
    (w.setRun r x).program? k = w.program? k := program?_modifyExecution ..
@[simp] theorem program?_eraseRun (r : RunKey) : (w.eraseRun r).program? k = w.program? k :=
  program?_modifyExecution ..
@[simp] theorem program?_setCall (c : CallKey) (y : Call) :
    (w.setCall c y).program? k = w.program? k := program?_modifyExecution ..
@[simp] theorem program?_eraseCall (c : CallKey) : (w.eraseCall c).program? k = w.program? k :=
  program?_modifyExecution ..
@[simp] theorem program?_count (r : RunKey) (f : Stats → Stats) :
    (w.count r f).program? k = w.program? k := by
  unfold count
  split
  · exact program?_modifyHost w k r.host (fun h => { h with stats := f h.stats }) fun _ => rfl
  · rfl

@[simp] theorem program?_completeNode (r : RunKey) (region : Program α) (s : Schedule)
    (holders node : Nat) (failed atOnce : Bool) :
    (w.completeNode r region s holders node failed atOnce).program? k = w.program? k := by
  rw [completeNode]
  dsimp only
  split <;> simp

@[simp] theorem program?_finish (c : CallKey) (o : Outcome) (atOnce : Bool) :
    (w.finish c o atOnce).program? k = w.program? k := by
  rw [finish]
  dsimp only
  repeat' split
  all_goals simp

@[simp] theorem program?_hold (r : RunKey) : (w.hold r).program? k = w.program? k := by
  rw [hold]
  split <;> simp

@[simp] theorem program?_settle (c : CallKey) (o : Outcome) :
    (w.settle c o).program? k = w.program? k := by
  rw [settle]
  split <;> simp

@[simp] theorem program?_advance (b : Backend α σ ι) (c : CallKey) (y : Call) (l : LoopState)
    (o : Outcome) : (w.advance b c y l o).program? k = w.program? k := by
  cases o with
  | error e => rfl
  | ok u =>
    rw [advance]
    repeat' split
    all_goals simp

theorem program?_call (b : Backend α σ ι) (c : CallKey) :
    (w.call b c).program? k = w.program? k := by
  have h := @profile_call _ _ _ k { ops := [] } w b c
  have := congrArg (Option.map Prod.fst) h
  simpa [profile, program?, grown, Function.comp_def] using this

/-- A step leaves the programs as they are. -/
theorem program?_step [Leaf α] {b : Backend α σ ι} {w w' : World α σ ι} {item : Item α ι}
    {agenda : List (Item α ι)} (hw : w.agenda = item :: agenda) (h : w.step? b = some w') (k : Nat) :
    w'.program? k = w.program? k := by
  rw [step?, hw] at h
  have hagenda : ({ w with agenda } : World α σ ι).program? k = w.program? k := rfl
  obtain rfl := Option.some.inj h
  cases item with
  | start r region =>
    simp only [World.start]
    split
    · simpa using hagenda
    · split <;> simpa using hagenda
  | visit r node =>
    simp only [visit]
    repeat' split
    all_goals first | simpa using hagenda | exact hagenda
  | submit r node =>
    simp only [submit]
    split <;> simpa using hagenda
  | release r =>
    simp only [release]
    repeat' split
    all_goals simpa using hagenda
  | call c => exact (program?_call _ k b c).trans hagenda
  | returned c =>
    simp only [returned]
    split <;> simpa using hagenda
  | settle c o => simpa using hagenda
  | settleRun r o =>
    simp only [settleRun]
    repeat' split
    all_goals simpa using hagenda
  | iterate c =>
    simp only [iterate]
    repeat' split
    all_goals simpa using hagenda
  | iterated c =>
    simp only [iterated]
    repeat' split
    all_goals simpa using hagenda
  | effect e =>
    cases e with
    | settle c o => simpa [carryOut] using hagenda
    | work i => exact hagenda
    | submit runner i =>
      simp only [carryOut]
      split <;> exact hagenda

end Program

end World

namespace Crew

variable [Leaf α] {b : Backend α σ ι} {s s₀ t : Crew α σ ι} {r : RunKey} {k : Nat}
  {region : Program α} {ch : Choice σ ι} {cs : List (Choice σ ι)}

theorem Move.program? (hm : Move b ch s t) (k : Nat) : t.world.program? k = s.world.program? k := by
  cases hm with
  | act hi hw => exact World.program?_step rfl hw k
  | take | outside => rfl
  | @drop _ _ _ _ task => cases task <;> rfl
  | execute => exact World.program?_modifyHost _ _ _ (fun h =>
      { h with executions := h.executions.push {} }) fun _ => rfl

theorem Follows.program? (hf : Follows b s₀ cs s) (k : Nat) :
    s.world.program? k = s₀.world.program? k := by
  induction hf with
  | nil => rfl
  | snoc _ hm ih => exact (hm.program? k).trans ih

theorem Leads.program? (h : Leads b s₀ s) (k : Nat) : s.world.program? k = s₀.world.program? k :=
  let ⟨_, hf⟩ := h
  hf.program? k

omit [Leaf α] in
theorem HasRegion.of_spawned {agenda : List (Item α ι)} (h : t.HasRegion r region)
    (hthreads : t.threads = s.threads ++ [agenda]) (hbegun : t.begun = s.begun)
    (hagenda : .start r region ∉ agenda) : s.HasRegion r region := by
  rcases h with hmem | ⟨items, hitems, hmem⟩
  · exact .inl (hbegun ▸ hmem)
  · rw [hthreads, List.mem_append, List.mem_singleton] at hitems
    rcases hitems with hitems | rfl
    · exact .inr ⟨items, hitems, hmem⟩
    · exact absurd hmem hagenda

/-- The outermost runs of a host run its program. -/
theorem Reachable.program (h : Reachable b s) (hr : s.HasRegion r region) (hk : r.scope = []) :
    s.world.program? r.host = some region := by
  induction h with
  | fresh => rcases hr with hr | ⟨items, hi, -⟩ <;> contradiction
  | @move s t ch hreach hm ih =>
    rw [hm.program?]
    have hs := hreach.sound
    cases hm with
    | @act _ i item rest w hi hw =>
      obtain ⟨items, tasks, run, call, hb, hc⟩ := World.step_cases rfl hw fun r region hr =>
        hs.known r (hasBegun_of_head (hr ▸ hi))
      rcases hr.of_after hi hb with hold | hnew
      · exact ih hold
      · obtain ⟨c, n, op, rfl, -⟩ := hc.start_mem hnew
        cases hk
    | @take _ _ _ _ task =>
      exact ih (hr.of_spawned rfl rfl (by cases task <;> simp [World.tasks]))
    | @drop _ _ _ _ task =>
      refine ih ?_
      cases task with
      | visit => exact hr.of_spawned rfl rfl (by simp)
      | work => exact hr.of_spawned rfl rfl (by simp)
    | outside change => exact ih (hr.of_spawned rfl rfl (by simp))
    | @execute _ i host hi =>
      by_cases hnew : .start r region ∈
          [(.start ⟨i, host.executions.size, []⟩ host.program : Item α ι)]
      · obtain ⟨rfl, rfl⟩ := Item.start.inj (List.mem_singleton.1 hnew)
        simp [World.program?, hi]
      · exact ih (hr.of_spawned rfl rfl hnew)

structure InOrder (s : Crew α σ ι) (k : Nat) (region : Program α) : Prop where
  program : s.world.program? k = some region
  ordered : (s.world.runnerOf? k).isSome → region.graph.isSequential

/-- So its outermost runs are in order. -/
theorem InOrder.takesInOrder (ho : s.InOrder k region) (h : Reachable b s) :
    s.world.TakesInOrder k region := by
  refine ⟨ho.ordered, fun r x hk hx => ?_, fun c y hy => ?_⟩
  · have hscope : r.scope = [] := by rw [RunKey.eq_of_isOutermost hk]
    have hhost : r.host = k := by rw [RunKey.eq_of_isOutermost hk]
    have hx' : (s.view r).run = some x := hx
    have hregion : ∀ {region'}, (s.view r).regions = [region'] → region' = region :=
      fun {region'} hregions => by
        have hmem : (r, region') ∈ s.begun := mem_begun_iff.2 (by simp [hregions])
        have := h.program (.inl hmem) hscope
        rw [hhost, ho.program] at this
        exact (Option.some.inj this).symm
    cases h.sound.run r with
    | idle hv | empty hv =>
      rw [hv.run] at hx'
      cases hx'
    | ordered hv =>
      have hnone : ∀ o, (s.view r).count (.resolved o) = 0 := fun o => by
        by_contra hne
        rw [hv.dead o (by omega)] at hx'
        cases hx'
      rw [hv.live hnone] at hx'
      rw [← Option.some.inj hx', hregion hv.regions]
    | scheduled hv =>
      have hc : (s.world.runnerOf? k).isSome := hhost ▸ hv.concurrent
      have := ho.ordered hc
      rw [← hregion hv.regions, hv.unordered] at this
      cases this
  · obtain ⟨-, op, hop⟩ := h.sound.operation_of_call hy
    obtain ⟨x, hx, -⟩ := Option.bind_eq_some_iff.1 hop
    rw [hx]
    rfl

/-- A move grows the counters of a host that executes its program in order by what is noted of it. -/
theorem Move.profile (hm : Move b ch s t) (h : Reachable b s) : ∃ new, t.log = s.log ++ new ∧
    ∀ k region, s.InOrder k region →
      t.world.profile k = (s.world.profile k).map (World.grown (gain region k new)) := by
  have hnone : ∀ {t : Crew α σ ι} {events : List Event}, t.log = s.log ++ events →
      (∀ e ∈ events, ∃ c, e = .dropped c) → t.world.profile = s.world.profile →
      ∃ new, t.log = s.log ++ new ∧ ∀ k region, s.InOrder k region →
        t.world.profile k = (s.world.profile k).map (World.grown (gain region k new)) :=
    fun {t events} hlog hevents hworld => ⟨events, hlog, fun k region _ => by
      have hzero : gain region k events = 0 := total_eq_zero _ _ fun e he _ => by
        obtain ⟨c, rfl⟩ := hevents e he
        rfl
      rw [hworld, hzero, World.grown_zero, Option.map_id_fun, id]⟩
  cases hm with
  | @act _ i item rest w hi hw =>
    refine ⟨s.world.noted item, rfl, fun k region ho => ?_⟩
    have htakes := ho.takesInOrder h
    have hseen : (s.seenBy (item :: rest)).TakesInOrder k region :=
      ⟨htakes.ordered, htakes.run, htakes.call⟩
    change w.profile k = _
    refine World.profile_step hseen rfl hw fun r region' hitem hk => ?_
    have hhead : s.HasRegion r region' :=
      .inr ⟨_, mem_threads hi, hitem ▸ List.mem_cons_self⟩
    have hprogram := h.program hhead (by rw [RunKey.eq_of_isOutermost hk])
    rw [show r.host = k by rw [RunKey.eq_of_isOutermost hk], ho.program] at hprogram
    exact (Option.some.inj hprogram).symm
  | take => exact hnone (List.append_nil _).symm (by simp) rfl
  | @drop _ _ _ _ task =>
    cases task with
    | visit r j => exact hnone rfl (by simp) rfl
    | work => exact hnone (List.append_nil _).symm (by simp) rfl
  | outside change => exact hnone (List.append_nil _).symm (by simp) rfl
  | @execute _ i host hi =>
    exact hnone (List.append_nil _).symm (by simp)
      (funext fun k => World.profile_modifyHost s.world k i fun xs => xs.push {})

theorem Move.inOrder_iff (hm : Move b ch s t) (h : Reachable b s) :
    t.InOrder k region ↔ s.InOrder k region := by
  have hrunner : t.world.runnerOf? k = s.world.runnerOf? k := by
    rcases hm.spawned with ⟨i, item, rest, w, hi, hw, rfl⟩ | ⟨tasks, agenda, events, hsp, -⟩
    · obtain ⟨items, tasks, run, call, hb, -⟩ := World.step_cases rfl hw fun r region hr =>
        h.sound.known r (hasBegun_of_head (hr ▸ hi))
      exact congrFun hb.runner k
    · exact congrFun hsp.runner k
  exact ⟨fun ho => ⟨hm.program? k ▸ ho.program, hrunner ▸ ho.ordered⟩,
    fun ho => ⟨(hm.program? k).trans ho.program, hrunner.symm ▸ ho.ordered⟩⟩

/-- The counters of a host that executes its program in order grow by what happens on it. -/
theorem Follows.profile (hf : Follows b s₀ cs s) (h : Reachable b s₀) : Reachable b s ∧
    ∃ new, s.log = s₀.log ++ new ∧ ∀ k region, s.InOrder k region → s₀.InOrder k region ∧
      s.world.profile k = (s₀.world.profile k).map (World.grown (gain region k new)) := by
  induction hf with
  | nil => exact ⟨h, [], (List.append_nil _).symm, fun k region ho => ⟨ho, by simp⟩⟩
  | @snoc cs ch s t hf hm ih =>
    obtain ⟨hs, new, hlog, hall⟩ := ih
    obtain ⟨more, hmore, hmove⟩ := hm.profile hs
    refine ⟨hs.move hm, new ++ more, by rw [hmore, hlog, List.append_assoc], fun k region ho => ?_⟩
    have ho' := (hm.inOrder_iff hs).1 ho
    obtain ⟨ho₀, hprofile⟩ := hall k region ho'
    refine ⟨ho₀, ?_⟩
    rw [hmove k region ho', hprofile, Option.map_map, gain_append]
    congr 1
    funext x
    exact congrArg (Prod.mk x.1) (add_assoc x.2 _ _)

end Crew

end OpFlow.Machine
