import OpFlow.Proofs.Machine.Invariant

/-!
An execution has an outcome as soon as its outermost run is settled, and from nothing else.
-/
namespace OpFlow.Machine

variable {α σ ι : Type}

theorem RunKey.caller?_eq_none {r : RunKey} : r.caller? = none ↔ r.scope = [] := by
  unfold RunKey.caller?
  split <;> simp_all

namespace World

def outcome? (w : World α σ ι) (host execution : Nat) : Option Outcome :=
  (w.execution? host execution).bind Execution.outcome

variable (w : World α σ ι) (h e : Nat)

theorem outcome?_modifyExecution (r : RunKey) (f : Execution α → Execution α)
    (hf : ∀ x, (f x).outcome = x.outcome) :
    (w.modifyExecution r f).outcome? h e = w.outcome? h e := by
  simp only [outcome?, execution?_modifyExecution]
  split
  · cases w.execution? h e <;> simp [hf]
  · rfl

@[simp] theorem outcome?_push (items : List (Item α ι)) :
    (w.push items).outcome? h e = w.outcome? h e := rfl
@[simp] theorem outcome?_setRunner (k : Nat) (q : Runner (Task ι)) :
    (w.setRunner k q).outcome? h e = w.outcome? h e := rfl
@[simp] theorem outcome?_setRun (r : RunKey) (x : Run α) :
    (w.setRun r x).outcome? h e = w.outcome? h e :=
  outcome?_modifyExecution w h e r (fun x' => { x' with runs := x'.runs.set r.scope x }) fun _ => rfl
@[simp] theorem outcome?_eraseRun (r : RunKey) : (w.eraseRun r).outcome? h e = w.outcome? h e :=
  outcome?_modifyExecution w h e r (fun x => { x with runs := x.runs.erase r.scope }) fun _ => rfl
@[simp] theorem outcome?_setCall (c : CallKey) (y : Call) :
    (w.setCall c y).outcome? h e = w.outcome? h e :=
  outcome?_modifyExecution w h e c.run
    (fun x => { x with calls := x.calls.set (c.run.scope, c.node) y }) fun _ => rfl
@[simp] theorem outcome?_eraseCall (c : CallKey) : (w.eraseCall c).outcome? h e = w.outcome? h e :=
  outcome?_modifyExecution w h e c.run
    (fun x => { x with calls := x.calls.erase (c.run.scope, c.node) }) fun _ => rfl
@[simp] theorem outcome?_count (r : RunKey) (f : Stats → Stats) :
    (w.count r f).outcome? h e = w.outcome? h e := by
  unfold count
  split
  · simp only [outcome?]
    rw [execution?_modifyHost]
    exact fun _ => rfl
  · rfl

@[simp] theorem outcome?_completeNode (r : RunKey) (region : Program α) (s : Schedule)
    (holders node : Nat) (failed atOnce : Bool) :
    (w.completeNode r region s holders node failed atOnce).outcome? h e = w.outcome? h e := by
  rw [completeNode]
  dsimp only
  split <;> simp

@[simp] theorem outcome?_finish (c : CallKey) (o : Outcome) (atOnce : Bool) :
    (w.finish c o atOnce).outcome? h e = w.outcome? h e := by
  rw [finish]
  dsimp only
  repeat' split
  all_goals simp

@[simp] theorem outcome?_hold (r : RunKey) : (w.hold r).outcome? h e = w.outcome? h e := by
  rw [hold]
  split <;> simp

@[simp] theorem outcome?_settle (c : CallKey) (o : Outcome) :
    (w.settle c o).outcome? h e = w.outcome? h e := by
  rw [settle]
  split <;> simp

@[simp] theorem outcome?_advance (b : Backend α σ ι) (c : CallKey) (call : Call) (l : LoopState)
    (o : Outcome) : (w.advance b c call l o).outcome? h e = w.outcome? h e := by
  cases o with
  | error e' => simp [advance]
  | ok u =>
    simp only [advance]
    repeat' split
    all_goals simp

@[simp] theorem outcome?_noteCall (c : CallKey) (op : Operation α) :
    (w.noteCall c op).outcome? h e = w.outcome? h e := outcome?_count w h e c.run _

theorem outcome?_call (b : Backend α σ ι) (c : CallKey) :
    (w.call b c).outcome? h e = w.outcome? h e := by
  have hset : ∀ op y, ((w.noteCall c op).setCall c y).outcome? h e = w.outcome? h e := by simp
  cases hop : w.operation? c with
  | none => rw [World.call, hop]
  | some op =>
    rw [World.call, hop]
    cases op with
    | leaf info a =>
      dsimp only
      split
      · exact hset (.leaf info a) {}
      · exact hset (.leaf info a) {}
    | call info body => exact hset (.call info body) {}
    | conditional info index type branches =>
      dsimp only
      split
      · exact hset (.conditional info index type branches) {}
      · split
        · exact hset (.conditional info index type branches) {}
        · exact hset (.conditional info index type branches) {}
    | loop info predicate condition body trips =>
      exact hset (.loop info predicate condition body trips) _

/-- The outcomes of executions after an outermost run has been settled. -/
theorem outcome?_settleRun {w : World α σ ι} {b : Backend α σ ι} {r : RunKey} (hr : r.scope = [])
    (hknows : w.Knows r) (o : Outcome) (h e : Nat) :
    (w.settleRun b r o).outcome? h e =
      if r.host = h ∧ r.execution = e then some o else w.outcome? h e := by
  rw [settleRun, RunKey.caller?_eq_none.2 hr]
  simp only [outcome?, execution?_modifyExecution]
  split
  case isTrue heq =>
    have hsome : ((w.eraseRun r).execution? r.host r.execution).isSome :=
      (knows_eraseRun w r r).2 hknows
    rw [← heq.1, ← heq.2]
    obtain ⟨x, hx⟩ := Option.isSome_iff_exists.1 hsome
    rw [hx]
    rfl
  case isFalse => exact outcome?_eraseRun w h e r

/-- The outcomes of executions after an item has been done. -/
theorem outcome?_step [Leaf α] {b : Backend α σ ι} {w w' : World α σ ι} {item : Item α ι}
    {agenda : List (Item α ι)} (hw : w.agenda = item :: agenda) (h : w.step? b = some w')
    (hitem : ∀ r o, item = .settleRun r o → r.scope ≠ []) (k e : Nat) :
    w'.outcome? k e = w.outcome? k e := by
  rw [step?, hw] at h
  have hagenda : ({ w with agenda } : World α σ ι).outcome? k e = w.outcome? k e := rfl
  obtain rfl := Option.some.inj h
  cases item with
  | start r region =>
    simp only [World.start]
    split
    · simpa using hagenda
    · split <;> simpa using hagenda
  | visit r node =>
    simp only [visit]
    repeat' split
    all_goals first | simpa using hagenda | exact hagenda
  | submit r node =>
    simp only [submit]
    split <;> simpa using hagenda
  | release r =>
    simp only [release]
    repeat' split
    all_goals simpa using hagenda
  | call c => exact (outcome?_call _ k e b c).trans hagenda
  | returned c =>
    simp only [returned]
    split <;> simpa using hagenda
  | settle c o => simpa using hagenda
  | settleRun r o =>
    simp only [settleRun]
    split
    · rename_i hr
      exact absurd (RunKey.caller?_eq_none.1 hr) (hitem r o rfl)
    · repeat' split
      all_goals simpa using hagenda
  | iterate c =>
    simp only [iterate]
    repeat' split
    all_goals simpa using hagenda
  | iterated c =>
    simp only [iterated]
    repeat' split
    all_goals simpa using hagenda
  | effect e' =>
    cases e' with
    | settle c o => simpa [carryOut] using hagenda
    | work x => exact hagenda
    | submit k' x =>
      simp only [carryOut]
      split <;> exact hagenda

end World

end OpFlow.Machine
