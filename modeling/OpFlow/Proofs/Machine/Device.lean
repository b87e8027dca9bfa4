import OpFlow.Proofs.Machine.Scene

/-!
What the machine does with its device. It reads the device only where control flow is steered, and it
changes it only by what the backend does. So a step goes the same way on another device that answers
alike; and all work that is asked for comes from the backend.
-/
namespace OpFlow

def Operation.steering? {α : Type} : Operation α → Option Slice
  | .conditional _ index _ _ => some index
  | .loop _ predicate _ _ _ => some predicate
  | .leaf _ _ | .call _ _ => none

namespace Machine

variable {α σ ι : Type}

namespace World

def on (w : World α σ ι) (d : σ) : World α σ ι := { w with device := d }

variable (w : World α σ ι) (d : σ)

@[simp] theorem device_on : (w.on d).device = d := rfl
@[simp] theorem on_device : w.on w.device = w := rfl
@[simp] theorem run?_on : (w.on d).run? = w.run? := rfl
@[simp] theorem call?_on : (w.on d).call? = w.call? := rfl
@[simp] theorem operation?_on : (w.on d).operation? = w.operation? := rfl
@[simp] theorem runnerOf?_on : (w.on d).runnerOf? = w.runnerOf? := rfl
@[simp] theorem runners_on : (w.on d).runners = w.runners := rfl
@[simp] theorem agenda_on : (w.on d).agenda = w.agenda := rfl
@[simp] theorem offer_on : (w.on d).offer = w.offer := rfl

theorem count_on (r : RunKey) (f : Stats → Stats) : (w.on d).count r f = (w.count r f).on d := by
  unfold count
  split <;> rfl

theorem completeNode_on (r : RunKey) (region : Program α) (s : Schedule)
    (holders node : Nat) (failed atOnce : Bool) :
    (w.on d).completeNode r region s holders node failed atOnce =
      (w.completeNode r region s holders node failed atOnce).on d := by
  have hset := fun f => count_on (w.setRun r ⟨region, .scheduled (s.complete node failed).1 holders⟩) d r f
  simp only [completeNode]
  split
  · exact congrArg (fun w => push w _) (hset _)
  · rfl

theorem start_on [Leaf α] (r : RunKey) (region : Program α) :
    (w.on d).start r region = (w.start r region).on d := by
  simp only [start, runnerOf?_on, count_on]
  split
  · rfl
  · split <;> rfl

theorem finish_on (c : CallKey) (o : Outcome) (atOnce : Bool) :
    (w.on d).finish c o atOnce = (w.finish c o atOnce).on d := by
  have herase : (w.on d).eraseCall c = (w.eraseCall c).on d := rfl
  have hinfo : (w.on d).infoOf c = w.infoOf c := rfl
  simp only [finish, herase, hinfo, run?_on, count_on, completeNode_on]
  repeat' split
  all_goals rfl

theorem visit_on (r : RunKey) (node : Nat) : (w.on d).visit r node = (w.visit r node).on d := by
  simp only [visit, run?_on, completeNode_on]
  repeat' split
  all_goals rfl

theorem hold_on (r : RunKey) : (w.on d).hold r = (w.hold r).on d := by
  simp only [hold, run?_on]
  split <;> rfl

theorem release_on (r : RunKey) : (w.on d).release r = (w.release r).on d := by
  simp only [release, run?_on]
  repeat' split
  all_goals rfl

theorem submit_on (r : RunKey) (node : Nat) : (w.on d).submit r node = (w.submit r node).on d := by
  simp only [submit, hold_on, runnerOf?_on, runners_on, offer_on]
  split <;> rfl

theorem returned_on (c : CallKey) : (w.on d).returned c = (w.returned c).on d := by
  simp only [returned, call?_on, finish_on, hold_on]
  split <;> rfl

theorem settle_on (c : CallKey) (o : Outcome) : (w.on d).settle c o = (w.settle c o).on d := by
  simp only [settle, call?_on, finish_on]
  split <;> rfl

theorem iterate_on (c : CallKey) : (w.on d).iterate c = (w.iterate c).on d := by
  simp only [iterate, operation?_on, call?_on]
  split
  · split <;> rfl
  · rfl

/-- A loop goes on the same way if its predicate reads the same. -/
theorem advance_on {b : Backend α σ ι} {c : CallKey} (y : Call) (l : LoopState) (o : Outcome)
    (h : ∀ op s, w.operation? c = some op → op.steering? = some s →
      b.read c.run.host s d = b.read c.run.host s w.device) :
    (w.on d).advance b c y l o = (w.advance b c y l o).on d := by
  cases o with
  | error e => rfl
  | ok u =>
    simp only [advance, operation?_on, device_on]
    split
    · rfl
    · split
      case h_1 hop =>
        rw [h _ _ hop rfl]
        repeat' split
        all_goals rfl
      case h_2 => rfl

theorem iterated_on {b : Backend α σ ι} {c : CallKey}
    (h : (w.call? c).isSome → ∀ op s, w.operation? c = some op → op.steering? = some s →
      b.read c.run.host s d = b.read c.run.host s w.device) :
    (w.on d).iterated b c = (w.iterated b c).on d := by
  simp only [iterated, call?_on]
  split
  · next hy =>
    split
    · exact advance_on w d _ _ _ (h (by rw [hy]; rfl))
    all_goals rfl
  · rfl

theorem operation?_of_eraseRun {r : RunKey} {c : CallKey} {op : Operation α}
    (h : (w.eraseRun r).operation? c = some op) : w.operation? c = some op := by
  obtain ⟨x, hx, hop⟩ := Option.bind_eq_some_iff.1 h
  rw [run?_eraseRun] at hx
  split at hx
  · cases hx
  · exact Option.bind_eq_some_iff.2 ⟨x, hx, hop⟩

theorem settleRun_on {b : Backend α σ ι} {r : RunKey} (o : Outcome)
    (h : ∀ c, r.caller? = some c → (w.call? c).isSome → ∀ op s, w.operation? c = some op →
      op.steering? = some s → b.read c.run.host s d = b.read c.run.host s w.device) :
    (w.on d).settleRun b r o = (w.settleRun b r o).on d := by
  have herase : (w.on d).eraseRun r = (w.eraseRun r).on d := rfl
  simp only [settleRun, herase, call?_on, call?_eraseRun]
  split
  · rfl
  · rename_i c hc
    split
    · rfl
    · next hy =>
      split
      · rfl
      · exact advance_on _ d _ _ _ fun op s hop hs =>
          h c hc (by rw [hy]; rfl) op s (operation?_of_eraseRun w hop) hs
      · rfl
    · rfl

theorem agenda_noteCall (c : CallKey) (op : Operation α) :
    (w.noteCall c op).agenda = w.agenda := agenda_count ..

theorem kept_noteCall (c : CallKey) (op : Operation α) : (w.noteCall c op).kept = w.kept := by
  rw [kept, kept]
  exact congrArg (fun q : Array (Runner (Task ι)) => q.toList.flatMap Runner.queued)
    (runners_count w c.run _)

theorem noteCall_on (c : CallKey) (op : Operation α) :
    (w.on d).noteCall c op = (w.noteCall c op).on d := by
  rw [noteCall, count_on]
  rfl

variable {w d}

def opening (c : CallKey) (r : Except String (List (Effect ι))) : List (Item α ι) :=
  match r with
  | .ok effects => effects.map .effect ++ [.returned c]
  | .error text => [.settle c (.error (.panicked text)), .returned c]

theorem call_leaf {b : Backend α σ ι} {c : CallKey} {info : OpInfo} {a : α}
    (hop : w.operation? c = some (.leaf info a)) : w.call b c =
      (((w.noteCall c (.leaf info a)).setCall c {}).on (b.launch c info a w.device).1).push
        (opening c (b.launch c info a w.device).2) := by
  simp only [World.call, hop, device_setCall, device_count]
  rcases b.launch c info a w.device with ⟨device, text | effects⟩ <;> rfl

theorem mem_of_mem_opening {c : CallKey} {r : Except String (List (Effect ι))} {e : Effect ι}
    (h : .effect e ∈ (opening c r : List (Item α ι))) : e ∈ r.toOption.getD [] := by
  cases r with
  | error text => simp [opening] at h
  | ok effects => simpa [opening, Except.toOption] using h

theorem call_leaf_on {b : Backend α σ ι} {c : CallKey} {info : OpInfo} {a : α}
    (hop : w.operation? c = some (.leaf info a))
    (h : (b.launch c info a d).2 = (b.launch c info a w.device).2) :
    (w.on d).call b c = (w.call b c).on (b.launch c info a d).1 := by
  rw [call_leaf hop, call_leaf (w := w.on d) hop, device_on, h, noteCall_on]
  rfl

/-- What follows from what is read of the index of a choice. -/
def chosen (c : CallKey) (type : IndexType) (branches : List (Program α)) (r : Except Error Bytes) :
    List (Item α ι) :=
  match r with
  | .error e => [.settle c (.error e), .returned c]
  | .ok bytes =>
    match branches[type.choose branches.length bytes]? with
    | some branch => [.start (c.nested 0) branch, .returned c]
    | none => [.returned c]

theorem call_conditional {b : Backend α σ ι} {c : CallKey} {info : OpInfo} {index : Slice}
    {type : IndexType} {branches : List (Program α)}
    (hop : w.operation? c = some (.conditional info index type branches)) : w.call b c =
      (((w.noteCall c (.conditional info index type branches)).setCall c {}).on w.device).push
        (chosen c type branches (b.read c.run.host index w.device)) := by
  simp only [World.call, hop, device_setCall, device_count]
  cases b.read c.run.host index w.device with
  | error e => rfl
  | ok bytes =>
    rw [chosen]
    dsimp only
    cases branches[type.choose branches.length bytes]? <;> rfl

/-- The start of an operation that is no leaf. -/
theorem call_on {b : Backend α σ ι} {c : CallKey}
    (hleaf : ∀ info a, w.operation? c ≠ some (.leaf info a))
    (h : ∀ op s, w.operation? c = some op → op.steering? = some s →
      b.read c.run.host s d = b.read c.run.host s w.device) :
    (w.on d).call b c = (w.call b c).on d := by
  cases hop : w.operation? c with
  | none => simp only [call, operation?_on, hop]
  | some op =>
    cases op with
    | leaf info a => exact absurd hop (hleaf info a)
    | call | loop =>
      simp only [call, operation?_on, hop, count_on]
      rfl
    | conditional info index type branches =>
      rw [call_conditional hop, call_conditional (w := w.on d) hop, device_on, h _ _ hop rfl,
        noteCall_on]
      rfl

theorem carryOut_work_on {b : Backend α σ ι} {x : ι}
    (h : (b.perform x d).2 = (b.perform x w.device).2) :
    (w.on d).carryOut b (.work x) = (w.carryOut b (.work x)).on (b.perform x d).1 := by
  simp only [carryOut, device_on, h]
  rfl

theorem carryOut_submit_on {b : Backend α σ ι} {x : ι} (k : Nat)
    (h : (b.discard x d).2 = (b.discard x w.device).2) :
    (w.on d).carryOut b (.submit k x) = (w.carryOut b (.submit k x)).on
      (match w.offer k (.work x) with
      | .dropped => (b.discard x d).1
      | .now | .kept _ => d) := by
  simp only [carryOut, device_on, offer_on, h]
  cases w.offer k (.work x) <;> rfl

end World

/-- The call that an item is about, if doing the item may read what steers the call. -/
def Item.steered? : Item α ι → Option CallKey
  | .call c | .iterated c => some c
  | .settleRun r _ => r.caller?
  | .start _ _ | .visit _ _ | .submit _ _ | .release _ | .returned _ | .settle _ _ | .iterate _
  | .effect _ => none

namespace World

def Steers (w : World α σ ι) (item : Item α ι) (c : CallKey) : Prop :=
  item.steered? = some c ∧ (item = .call c ∨ (w.call? c).isSome)

/-- What doing an item makes of a device. -/
def deviceAfter (b : Backend α σ ι) (w : World α σ ι) (item : Item α ι) (d : σ) : σ :=
  match item with
  | .call c =>
    match w.operation? c with
    | some (.leaf info a) => (b.launch c info a d).1
    | _ => d
  | .effect (.work x) => (b.perform x d).1
  | .effect (.submit k x) =>
    match w.offer k (.work x) with
    | .dropped => (b.discard x d).1
    | .now | .kept _ => d
  | _ => d

/-- Another device answers what an item asks of it in the same way. -/
structure AnswersAlike (b : Backend α σ ι) (w : World α σ ι) (item : Item α ι) (d : σ) : Prop where
  read : ∀ c op s, w.Steers item c → w.operation? c = some op → op.steering? = some s →
    b.read c.run.host s d = b.read c.run.host s w.device
  launch : ∀ c info a, item = .call c → w.operation? c = some (.leaf info a) →
    (b.launch c info a d).2 = (b.launch c info a w.device).2
  perform : ∀ x, item = .effect (.work x) → (b.perform x d).2 = (b.perform x w.device).2
  discard : ∀ k x, item = .effect (.submit k x) → (b.discard x d).2 = (b.discard x w.device).2

/-- A step goes the same way on another device that answers alike. -/
theorem step?_on [Leaf α] {b : Backend α σ ι} {w w' : World α σ ι} {item : Item α ι}
    {agenda : List (Item α ι)} {d : σ} (hw : w.agenda = item :: agenda) (h : w.step? b = some w')
    (hd : w.AnswersAlike b item d) :
    (w.on d).step? b = some (w'.on (w.deviceAfter b item d)) := by
  have hw' : (w.on d).agenda = item :: agenda := hw
  have hon : ({ w.on d with agenda } : World α σ ι) = ({ w with agenda } : World α σ ι).on d := rfl
  rw [step?, hw] at h
  rw [step?, hw']
  obtain rfl := Option.some.inj h
  simp only [hon]
  congr 1
  cases item with
  | start r region => exact start_on _ d r region
  | visit r node => exact visit_on _ d r node
  | submit r node => exact submit_on _ d r node
  | release r => exact release_on _ d r
  | call c =>
    by_cases hleaf : ∃ info a, w.operation? c = some (.leaf info a)
    · obtain ⟨info, a, hop⟩ := hleaf
      simp only [deviceAfter, hop]
      exact call_leaf_on hop (hd.launch c info a rfl hop)
    · have hnot : ∀ info a, w.operation? c ≠ some (.leaf info a) :=
        fun info a hop => hleaf ⟨info, a, hop⟩
      have hafter : w.deviceAfter b (.call c) d = d := by
        rw [deviceAfter]
        cases hop : w.operation? c with
        | none => rfl
        | some op =>
          cases op with
          | leaf info a => exact absurd hop (hnot info a)
          | call | conditional | loop => rfl
      rw [hafter]
      exact call_on hnot fun op s => hd.read c op s ⟨rfl, .inl rfl⟩
  | returned c => exact returned_on _ d c
  | settle c o => exact settle_on _ d c o
  | settleRun r o => exact settleRun_on _ d o fun c hc hy op s => hd.read c op s ⟨hc, .inr hy⟩
  | iterate c => exact iterate_on _ d c
  | iterated c => exact iterated_on _ d fun hy op s => hd.read c op s ⟨rfl, .inr hy⟩
  | effect e =>
    cases e with
    | settle c o => exact settle_on _ d c o
    | work x => exact carryOut_work_on (hd.perform x rfl)
    | submit k x => exact carryOut_submit_on k (hd.discard k x rfl)

theorem device_step? [Leaf α] {b : Backend α σ ι} {w w' : World α σ ι} {item : Item α ι}
    {agenda : List (Item α ι)} (hw : w.agenda = item :: agenda) (h : w.step? b = some w') :
    w'.device = w.deviceAfter b item w.device := by
  have hon := step?_on hw h (d := w.device) ⟨fun _ _ _ _ _ _ => rfl, fun _ _ _ _ _ => rfl,
    fun _ _ => rfl, fun _ _ _ => rfl⟩
  rw [on_device, h] at hon
  exact congrArg World.device (Option.some.inj hon)

/-! ### Work -/

/-- The machine has gone on, and no work has been asked for. -/
structure Withholds (w w' : World α σ ι) : Prop where
  agenda : ∀ e, .effect e ∈ w'.agenda → .effect e ∈ w.agenda
  kept : ∀ x, .work x ∈ w'.kept → .work x ∈ w.kept

namespace Withholds

variable {w w' : World α σ ι}

theorem refl (w : World α σ ι) : w.Withholds w := ⟨fun _ => id, fun _ => id⟩

theorem of_inner (h : w.Inner w') : w.Withholds w' := by
  obtain ⟨items, hagenda, hitems⟩ := h.agenda
  refine ⟨fun e he => ?_, fun x hx => ?_⟩
  · rw [hagenda] at he
    rcases List.mem_append.1 he with he | he
    · cases hitems _ he
    · exact he
  · have hmem := h.kept.mem_iff.1 (List.mem_filterMap.2 ⟨.work x, hx, rfl⟩)
    obtain ⟨t, ht, heq⟩ := List.mem_filterMap.1 hmem
    cases t with
    | visit => cases heq
    | work y =>
      cases heq
      exact ht

theorem of_eq (h : w.Withholds w') {u : World α σ ι} (hrunners : u.runners = w'.runners)
    (hagenda : u.agenda = w'.agenda) : w.Withholds u := by
  have hkept : u.kept = w'.kept := by rw [World.kept, World.kept, hrunners]
  exact ⟨hagenda ▸ h.agenda, hkept ▸ h.kept⟩

theorem push (h : w.Withholds w') {items : List (Item α ι)} (hitems : ∀ e, .effect e ∉ items) :
    w.Withholds (w'.push items) :=
  ⟨fun e he => (List.mem_append.1 he).elim (fun he => absurd he (hitems e)) (h.agenda e), h.kept⟩

theorem setCall (h : w.Withholds w') (c : CallKey) (y : Call) : w.Withholds (w'.setCall c y) :=
  h.of_eq rfl rfl

theorem eraseRun (h : w.Withholds w') (r : RunKey) : w.Withholds (w'.eraseRun r) := h.of_eq rfl rfl

theorem noteCall (h : w.Withholds w') (c : CallKey) (op : Operation α) :
    w.Withholds (w'.noteCall c op) :=
  h.of_eq (runners_count w' c.run _) (agenda_count w' c.run _)

theorem advance (h : w.Withholds w') (b : Backend α σ ι) (c : CallKey) (y : Call) (l : LoopState)
    (o : Outcome) : w.Withholds (w'.advance b c y l o) := by
  cases o with
  | error e => exact h.push (by simp)
  | ok u =>
    rw [World.advance]
    repeat' split
    · exact (h.setCall _ _).push (by simp)
    · exact h.push (by simp)
    · exact (h.setCall _ _).push (by simp)
    · exact h.push (by simp)
    · exact h

theorem iterate (h : w.Withholds w') (c : CallKey) : w.Withholds (w'.iterate c) := by
  rw [World.iterate]
  repeat' split
  · exact h.push (by simp)
  · exact (h.setCall _ _).push (by simp)
  · exact h

theorem iterated (h : w.Withholds w') (b : Backend α σ ι) (c : CallKey) :
    w.Withholds (w'.iterated b c) := by
  rw [World.iterated]
  repeat' split
  · exact h.advance _ _ _ _ _
  · exact h.setCall _ _
  · exact h.setCall _ _
  · exact h

theorem settleRun (h : w.Withholds w') (b : Backend α σ ι) (r : RunKey) (o : Outcome) :
    w.Withholds (w'.settleRun b r o) := by
  have herase := h.eraseRun r
  rw [World.settleRun]
  repeat' split
  · exact herase.of_eq rfl rfl
  · exact herase.push (by simp)
  · exact herase.setCall _ _
  · exact herase.advance _ _ _ _ _
  · exact herase
  · exact herase

/-- The start of an operation that is no leaf. -/
theorem call (h : w.Withholds w') (b : Backend α σ ι) {c : CallKey}
    (hleaf : ∀ info a, w'.operation? c ≠ some (.leaf info a)) : w.Withholds (w'.call b c) := by
  cases hop : w'.operation? c with
  | none =>
    rw [World.call, hop]
    exact h
  | some op =>
    have hset := fun y => (h.noteCall c op).setCall c y
    cases op with
    | leaf info a => exact absurd hop (hleaf info a)
    | call info body =>
      rw [World.call, hop]
      exact (hset {}).push (by simp)
    | loop info predicate condition body trips =>
      rw [World.call, hop]
      exact (hset { loop := some {} }).push (by simp)
    | conditional info index type branches =>
      rw [call_conditional hop]
      have hchosen : ∀ r e, Item.effect e ∉ (chosen c type branches r : List (Item α ι)) := fun r e => by
        unfold chosen
        repeat' split
        all_goals simp
      exact ((hset {}).of_eq (u := ((w'.noteCall c _).setCall c {}).on w'.device) rfl rfl).push
        (hchosen _)

end Withholds

/-- What a backend asks for as an item is done. -/
def effectsAfter (b : Backend α σ ι) (w : World α σ ι) (item : Item α ι) : List (Effect ι) :=
  match item with
  | .call c =>
    match w.operation? c with
    | some (.leaf info a) => ((b.launch c info a w.device).2.toOption).getD []
    | _ => []
  | .effect (.work x) => (b.perform x w.device).2.1
  | .effect (.submit k x) =>
    match w.offer k (.work x) with
    | .dropped => (b.discard x w.device).2
    | .now | .kept _ => []
  | _ => []

end World

def Effect.work? : Effect ι → Option ι
  | .settle _ _ => none
  | .work x | .submit _ x => some x

namespace World

/-- Some work has been asked for, and is to be done or to be submitted, or a runner keeps it. -/
def Owes (w : World α σ ι) (x : ι) : Prop :=
  (∃ e, .effect e ∈ w.agenda ∧ e.work? = some x) ∨ .work x ∈ w.kept

section Step

variable [Leaf α] {b : Backend α σ ι} {w w' : World α σ ι} {item : Item α ι} {agenda : List (Item α ι)}
  (hw : w.agenda = item :: agenda) (h : w.step? b = some w')

include hw h

/-- Only the start of a leaf operation, and what the backend has asked for, bring anything that the
backend is to do. -/
theorem withholds_step? : ({ w with agenda } : World α σ ι).Withholds w' ∨
    (∃ c info a, item = .call c ∧ w.operation? c = some (.leaf info a)) ∨
      (∃ x, item = .effect (.work x)) ∨ ∃ k x, item = .effect (.submit k x) := by
  rw [step?, hw] at h
  obtain rfl := Option.some.inj h
  cases item with
  | start r region => exact .inl (.of_inner (inner_start _ r region))
  | visit r node => exact .inl (.of_inner (inner_visit _ r node))
  | submit r node => exact .inl (.of_inner (inner_submit _ r node))
  | release r => exact .inl (.of_inner (inner_release _ r))
  | returned c => exact .inl (.of_inner (inner_returned _ c))
  | settle c o => exact .inl (.of_inner (inner_settle _ c o))
  | settleRun r o => exact .inl ((Withholds.refl _).settleRun b r o)
  | iterate c => exact .inl ((Withholds.refl _).iterate c)
  | iterated c => exact .inl ((Withholds.refl _).iterated b c)
  | call c =>
    by_cases hleaf : ∃ info a, w.operation? c = some (.leaf info a)
    · obtain ⟨info, a, hop⟩ := hleaf
      exact .inr (.inl ⟨c, info, a, rfl, hop⟩)
    · exact .inl ((Withholds.refl _).call b fun info a hop => hleaf ⟨info, a, hop⟩)
  | effect e =>
    cases e with
    | settle c o => exact .inl (.of_inner (inner_settle _ c o))
    | work x => exact .inr (.inr (.inl ⟨x, rfl⟩))
    | submit k x => exact .inr (.inr (.inr ⟨k, x, rfl⟩))

/-- Nothing is asked for but what was so before, what the backend asks for, and work that was to be
submitted and is done at once. -/
theorem mem_agenda_step? {e : Effect ι} (he : .effect e ∈ w'.agenda) :
    .effect e ∈ agenda ∨ e ∈ w.effectsAfter b item ∨
      ∃ k x, item = .effect (.submit k x) ∧ e = .work x := by
  have hmap : ∀ {effects : List (Effect ι)}, (Item.effect e : Item α ι) ∈ effects.map .effect →
      e ∈ effects := by simp
  rcases withholds_step? hw h with hwithholds | hitem
  · exact .inl (hwithholds.agenda e he)
  rw [step?, hw] at h
  obtain rfl := Option.some.inj h
  rcases hitem with ⟨c, info, a, rfl, hop⟩ | ⟨x, rfl⟩ | ⟨k, x, rfl⟩
  · simp only [call_leaf (w := { w with agenda }) hop] at he
    rw [agenda_push, agenda_on, agenda_setCall, agenda_noteCall] at he
    simp only [effectsAfter, hop]
    exact (List.mem_append.1 he).elim (fun he => .inr (.inl (mem_of_mem_opening he))) .inl
  · exact (List.mem_append.1 he).elim (fun he => .inr (.inl (hmap he))) .inl
  · have hoffer : ({ w with agenda } : World α σ ι).offer = w.offer := rfl
    change .effect e ∈ (({ w with agenda } : World α σ ι).carryOut b (.submit k x)).agenda at he
    simp only [carryOut, hoffer] at he
    simp only [effectsAfter]
    cases hq : w.offer k (.work x) with
    | now =>
      rw [hq] at he
      refine (List.mem_append.1 he).elim (fun he => .inr (.inr ⟨k, x, rfl, ?_⟩)) .inl
      exact Item.effect.inj (List.mem_singleton.1 he)
    | kept q' =>
      rw [hq] at he
      exact .inl he
    | dropped =>
      rw [hq] at he
      exact (List.mem_append.1 he).elim (fun he => .inr (.inl (hmap he))) .inl

/-- Runners keep no work but what they kept before, and what was to be submitted. -/
theorem mem_kept_step? {x : ι} (hx : .work x ∈ w'.kept) :
    .work x ∈ w.kept ∨ ∃ k, item = .effect (.submit k x) := by
  rcases withholds_step? hw h with hwithholds | hitem
  · exact .inl (hwithholds.kept x hx)
  rw [step?, hw] at h
  obtain rfl := Option.some.inj h
  rcases hitem with ⟨c, info, a, rfl, hop⟩ | ⟨y, rfl⟩ | ⟨k, y, rfl⟩
  · simp only [call_leaf (w := { w with agenda }) hop, kept_push] at hx
    exact .inl (kept_noteCall { w with agenda } c (.leaf info a) ▸ hx)
  · exact .inl hx
  · have hoffer : ({ w with agenda } : World α σ ι).offer = w.offer := rfl
    change .work x ∈ (({ w with agenda } : World α σ ι).carryOut b (.submit k y)).kept at hx
    simp only [carryOut, hoffer] at hx
    cases hq : w.offer k (.work y) with
    | now | dropped =>
      rw [hq] at hx
      exact .inl hx
    | kept q' =>
      rw [hq] at hx
      have hkept : (({ w with agenda } : World α σ ι).setRunner k q').kept.Perm
          (.work y :: w.kept) := by
        simp only [offer] at hq
        split at hq
        case h_1 q hk => exact ((Became.refl { w with agenda }).keep hk hq).kept
        case h_2 => cases hq
      rcases List.mem_cons.1 (hkept.mem_iff.1 hx) with heq | hx
      · exact .inr ⟨k, by rw [Task.work.inj heq]⟩
      · exact .inl hx

theorem owes_step? {x : ι} (hx : w'.Owes x) :
    w.Owes x ∨ ∃ e ∈ w.effectsAfter b item, e.work? = some x := by
  rcases hx with ⟨e, he, hwork⟩ | hx
  · rcases mem_agenda_step? hw h he with he | he | ⟨k, y, rfl, rfl⟩
    · exact .inl (.inl ⟨e, hw ▸ List.mem_cons_of_mem _ he, hwork⟩)
    · exact .inr ⟨e, he, hwork⟩
    · exact .inl (.inl ⟨.submit k y, hw ▸ List.mem_cons_self, hwork⟩)
  · rcases mem_kept_step? hw h hx with hx | ⟨k, rfl⟩
    · exact .inl (.inr hx)
    · exact .inl (.inl ⟨.submit k x, hw ▸ List.mem_cons_self, rfl⟩)

end Step

end World

/-! ### Crews -/

namespace Crew

variable {s t : Crew α σ ι} {ch : Choice σ ι} {x : ι} {d : σ}

def on (s : Crew α σ ι) (d : σ) : Crew α σ ι := { s with world := s.world.on d }

/-- Some work has been asked for, and a thread is to do it or to submit it, or a runner keeps it. -/
def Owes (s : Crew α σ ι) (x : ι) : Prop :=
  (∃ items ∈ s.threads, ∃ e, .effect e ∈ items ∧ e.work? = some x) ∨ .work x ∈ s.world.kept

/-- What a move does with a device, and what effects follow. -/
inductive Turn (b : Backend α σ ι) (s : Crew α σ ι) : Choice σ ι → (σ → σ × List (Effect ι)) → Prop
  | idle {ch : Choice σ ι} : Turn b s ch fun d => (d, [])
  | launch {i : Nat} {c : CallKey} {info : OpInfo} {a : α} {rest : List (Item α ι)}
      (hi : s.threads[i]? = some (Item.call c :: rest))
      (hop : s.world.operation? c = some (.leaf info a)) :
      Turn b s (.act i) fun d => ((b.launch c info a d).1, (b.launch c info a d).2.toOption.getD [])
  | perform {i : Nat} {x : ι} (hx : s.Owes x) :
      Turn b s (.act i) fun d => ((b.perform x d).1, (b.perform x d).2.1)
  | discard {ch : Choice σ ι} {x : ι} (hx : s.Owes x) : Turn b s ch (b.discard x)
  | outside {change : σ → σ × List (Effect ι)} : Turn b s (.outside change) change

/-- The thread that is to act has this item before all others. -/
def Faces (s : Crew α σ ι) (ch : Choice σ ι) (item : Item α ι) : Prop :=
  ∃ i rest, ch = .act i ∧ s.threads[i]? = some (item :: rest)

/-- On another device everything that a crew does next has the same answers. -/
structure AnswersAlike (b : Backend α σ ι) (s : Crew α σ ι) (ch : Choice σ ι) (d : σ) : Prop where
  read : ∀ item c op slice, s.Faces ch item → s.world.Steers item c →
    s.world.operation? c = some op → op.steering? = some slice →
      b.read c.run.host slice d = b.read c.run.host slice s.world.device
  launch : ∀ c info a, s.Faces ch (.call c) → s.world.operation? c = some (.leaf info a) →
    (b.launch c info a d).2 = (b.launch c info a s.world.device).2
  perform : ∀ x, s.Owes x → (b.perform x d).2 = (b.perform x s.world.device).2
  discard : ∀ x, s.Owes x → (b.discard x d).2 = (b.discard x s.world.device).2
  outside : ∀ change, ch = .outside change → (change d).2 = (change s.world.device).2

theorem owes_of_head {i : Nat} {e : Effect ι} {rest : List (Item α ι)}
    (hi : s.threads[i]? = some (.effect e :: rest)) (hx : e.work? = some x) : s.Owes x :=
  .inl ⟨_, List.mem_of_getElem? hi, e, List.mem_cons_self, hx⟩

/-- What doing an item does with a device is one of the things that a move does. -/
theorem turn_item (b : Backend α σ ι) {i : Nat} {item : Item α ι} {rest : List (Item α ι)}
    (hi : s.threads[i]? = some (item :: rest)) : ∃ f, Turn b s (.act i) f ∧
      (∀ d, (f d).1 = s.world.deviceAfter b item d) ∧
      (f s.world.device).2 = s.world.effectsAfter b item := by
  have hidle : ∀ item : Item α ι, (∀ d, s.world.deviceAfter b item d = d) →
      s.world.effectsAfter b item = [] → ∃ f, Turn b s (.act i) f ∧
        (∀ d, (f d).1 = s.world.deviceAfter b item d) ∧
        (f s.world.device).2 = s.world.effectsAfter b item := fun item hdevice heffects =>
    ⟨_, .idle, fun d => (hdevice d).symm, heffects.symm⟩
  cases item with
  | call c =>
    cases hop : s.world.operation? c with
    | none => exact hidle _ (fun d => by simp [World.deviceAfter, hop]) (by simp [World.effectsAfter, hop])
    | some op =>
      cases op with
      | leaf info a =>
        exact ⟨_, .launch hi hop, fun d => by simp [World.deviceAfter, hop],
          by simp [World.effectsAfter, hop]⟩
      | call | conditional | loop =>
        exact hidle _ (fun d => by simp [World.deviceAfter, hop]) (by simp [World.effectsAfter, hop])
  | effect e =>
    cases e with
    | settle c o => exact hidle _ (fun d => rfl) rfl
    | work x => exact ⟨_, .perform (owes_of_head hi rfl), fun d => rfl, rfl⟩
    | submit k x =>
      cases hq : s.world.offer k (.work x) with
      | dropped =>
        exact ⟨_, .discard (owes_of_head hi rfl), fun d => by simp [World.deviceAfter, hq],
          by simp [World.effectsAfter, hq]⟩
      | now | kept =>
        exact hidle _ (fun d => by simp [World.deviceAfter, hq]) (by simp [World.effectsAfter, hq])
  | _ => exact hidle _ (fun d => rfl) rfl

variable [Leaf α] {b : Backend α σ ι}

omit [Leaf α] in
theorem after_on (s : Crew α σ ι) (d d' : σ) (i : Nat) (item : Item α ι) (w : World α σ ι) :
    (s.on d).after i item (w.on d') = (s.after i item w).on d' := by
  have hnoted : (s.world.on d).noted item = s.world.noted item := by
    cases item with
    | effect e => cases e <;> rfl
    | _ => rfl
  rw [after, after, show (s.on d).world.noted item = s.world.noted item from hnoted]
  rfl

omit [Leaf α] in
theorem owes_of_spawn {agenda : List (Item α ι)} (hthreads : t.threads = s.threads ++ [agenda])
    (hx : t.Owes x) (hkept : ∀ x, .work x ∈ t.world.kept → .work x ∈ s.world.kept) :
    s.Owes x ∨ ∃ e, .effect e ∈ agenda ∧ e.work? = some x := by
  rcases hx with ⟨items, hitems, e, he, hwork⟩ | hx
  · rw [hthreads, List.mem_append, List.mem_singleton] at hitems
    rcases hitems with hitems | rfl
    · exact .inl (.inl ⟨items, hitems, e, he, hwork⟩)
    · exact .inr ⟨e, he, hwork⟩
  · exact .inl (.inr (hkept x hx))

theorem device_after (i : Nat) {item : Item α ι} {rest : List (Item α ι)} {w : World α σ ι}
    (hw : (s.seenBy (item :: rest)).step? b = some w) :
    (s.after i item w).world.device = s.world.deviceAfter b item s.world.device := by
  have hstep := World.device_step? (w := s.seenBy (item :: rest)) rfl hw
  exact hstep

theorem owes_after {i : Nat} {item : Item α ι} {rest : List (Item α ι)} {w : World α σ ι}
    (hi : s.threads[i]? = some (item :: rest)) (hw : (s.seenBy (item :: rest)).step? b = some w)
    (hx : (s.after i item w).Owes x) :
    s.Owes x ∨ ∃ e ∈ s.world.effectsAfter b item, e.work? = some x := by
  have hseen : (s.seenBy (item :: rest)).Owes x → s.Owes x :=
    fun hx => hx.imp (fun ⟨e, he, hwork⟩ => ⟨_, mem_threads hi, e, he, hwork⟩) id
  have hnew : w.Owes x → s.Owes x ∨ ∃ e ∈ s.world.effectsAfter b item, e.work? = some x := fun hx =>
    (World.owes_step? (w := s.seenBy (item :: rest)) rfl hw hx).imp hseen id
  rcases hx with ⟨items, hitems, e, he, hwork⟩ | hx
  · rcases List.mem_or_eq_of_mem_set hitems with hitems | rfl
    · exact .inl (.inl ⟨items, hitems, e, he, hwork⟩)
    · exact hnew (.inl ⟨e, he, hwork⟩)
  · exact hnew (.inr hx)

/-- A move does with the device what the backend does, or what happens outside; all work that is owed
then was owed before or has just been asked for; and the crew moves in the same way on another device
that answers alike. -/
theorem Move.turn (hm : Move b ch s t) : ∃ f, Turn b s ch f ∧
    t.world.device = (f s.world.device).1 ∧
    (∀ x, t.Owes x → s.Owes x ∨ ∃ e ∈ (f s.world.device).2, e.work? = some x) ∧
    ∀ d, AnswersAlike b s ch d → Move b ch (s.on d) (t.on (f d).1) := by
  cases hm with
  | @act _ i item rest w hi hw =>
    obtain ⟨f, hf, hdevice, heffects⟩ := turn_item b hi
    refine ⟨f, hf, (hdevice _).symm ▸ device_after i hw, fun x hx => ?_, fun d hd => ?_⟩
    · exact heffects ▸ owes_after hi hw hx
    · have hstep := World.step?_on (w := s.seenBy (item :: rest)) rfl hw (d := d)
        ⟨fun c op slice => hd.read item c op slice ⟨i, rest, rfl, hi⟩,
          fun c info a hitem hop => hd.launch c info a ⟨i, rest, rfl, hitem ▸ hi⟩ hop,
          fun x hitem => hd.perform x (owes_of_head (hitem ▸ hi) rfl),
          fun k x hitem => hd.discard x (owes_of_head (hitem ▸ hi) rfl)⟩
      rw [hdevice, ← after_on s d]
      exact .act (s := s.on d) hi hstep
  | @take _ k r rest task hk hr =>
    have hkept := World.kept_give hk hr
    refine ⟨_, .idle, rfl, fun x hx => .inl ?_, fun d hd => .take (s := s.on d) hk hr⟩
    rcases owes_of_spawn (s := s) rfl hx
      (fun x hx => hkept.mem_iff.2 (List.mem_cons_of_mem _ hx)) with hold | ⟨e, he, hwork⟩
    · exact hold
    · cases task with
      | visit => simp [World.tasks] at he
      | work y =>
        obtain rfl : e = .work y := by simpa [World.tasks] using he
        obtain rfl := Option.some.inj hwork
        exact .inr (hkept.mem_iff.2 List.mem_cons_self)
  | @drop _ k r rest task hk hr =>
    have hkept := World.kept_give hk hr
    have hrest : ∀ x, .work x ∈ (s.world.setRunner k rest).kept → .work x ∈ s.world.kept :=
      fun x hx => hkept.mem_iff.2 (List.mem_cons_of_mem _ hx)
    cases task with
    | visit r' node =>
      refine ⟨_, .idle, rfl, fun x hx => .inl ?_, fun d hd => .drop (s := s.on d) hk hr⟩
      rcases owes_of_spawn (s := s) rfl hx hrest with hold | ⟨e, he, -⟩
      · exact hold
      · simp at he
    | work y =>
      have hy : s.Owes y := .inr (hkept.mem_iff.2 List.mem_cons_self)
      refine ⟨_, .discard hy, rfl, fun x hx => ?_, fun d hd => ?_⟩
      · rcases owes_of_spawn (s := s) rfl hx hrest with hold | ⟨e, he, hwork⟩
        · exact .inl hold
        · obtain ⟨e', he', heq⟩ := List.mem_map.1 he
          cases heq
          exact .inr ⟨e, he', hwork⟩
      · have hmove := Move.drop (b := b) (s := s.on d) hk hr
        have hlose : lose b ({ s.on d with world := (s.on d).world.setRunner k rest }) (.work y) =
            (lose b { s with world := s.world.setRunner k rest } (.work y)).on (b.discard y d).1 := by
          simp only [lose]
          exact congrArg (fun effects => spawn _ (effects.map .effect)) (hd.discard y hy)
        rwa [hlose] at hmove
  | outside change =>
    refine ⟨_, .outside, rfl, fun x hx => ?_, fun d hd => ?_⟩
    · rcases owes_of_spawn (s := s) rfl hx (fun x hx => hx) with hold | ⟨e, he, hwork⟩
      · exact .inl hold
      · exact .inr ⟨e, by simpa using he, hwork⟩
    · have hmove := Move.outside (b := b) (s := s.on d) change
      have hspawn : ({ s.on d with world := { (s.on d).world with device := (change d).1 } } :
          Crew α σ ι).spawn ((change d).2.map .effect) =
            (({ s with world := { s.world with device := (change s.world.device).1 } } :
              Crew α σ ι).spawn ((change s.world.device).2.map .effect)).on (change d).1 :=
        congrArg (fun effects => spawn _ (effects.map .effect)) (hd.outside change rfl)
      rw [← hspawn]
      exact hmove
  | @execute _ i h hi =>
    refine ⟨_, .idle, rfl, fun x hx => .inl ?_, fun d hd => .execute (s := s.on d) hi⟩
    rcases owes_of_spawn (s := s) rfl hx (fun x hx => hx) with hold | ⟨e, he, -⟩
    · exact hold
    · simp at he

end Crew

end Machine

end OpFlow
