import OpFlow.Proofs.Machine.InOrder
import OpFlow.Proofs.Machine.Unchecked

/-!
Errors keep their innermost attribution. What a nested run fails with is what its call ends with, and
a run fails with the earliest failure in it, attributed to the operation that failed. Attribution
never replaces an earlier one; so when an execution fails, the way down from the outermost run by the
earliest failure of each run leads to the operation whose own error it is.
-/
namespace OpFlow

namespace Error

@[simp] theorem causeText_attributedTo (e : Error) (i : OpInfo) :
    (e.attributedTo i).causeText = e.causeText := by
  unfold attributedTo
  split
  · cases e <;> rfl
  · rfl

end Error

namespace Machine

variable {α σ ι : Type}

namespace Crew

variable {s : Crew α σ ι} {r : RunKey} {i n : Nat} {item : Item α ι} {rest items : List (Item α ι)}
  {tasks : List (Task ι)} {w : World α σ ι} {run : RunKey → Option (Run α)}
  {call : CallKey → Option Call} {c : CallKey} {x x' : Stage} {o : Outcome} {e : Error}

/-! ### From a nested run to its call -/

/-- A call has ended with this outcome, or will as soon as its start returns. -/
def SettledWith (s : Crew α σ ι) (c : CallKey) (o : Outcome) : Prop :=
  (∃ l, s.world.call? c = some ⟨.settled o, l⟩) ∨ .ended c o ∈ s.log

/-- A call that is at a stage hands on the error of a nested run, of which there is only one. -/
structure PassesOn (s : Crew α σ ι) (c : CallKey) (x : Stage) : Prop where
  onward : ∀ n e, .resolved (c.nested n) (.error e) ∈ s.log →
    x = .closing (.error e) ∨ x = .settling (.error e) ∨ x = .quiet ∧ s.SettledWith c (.error e)
  one : ∀ n n' e e', .resolved (c.nested n) (.error e) ∈ s.log →
    .resolved (c.nested n') (.error e') ∈ s.log → n' = n

theorem mem_log_after : .resolved r o ∈ (s.after i item w).log ↔
    .resolved r o ∈ s.log ∨ item = .settleRun r o := by
  simp only [after, List.mem_append, mem_noted_resolved]

theorem PassesOn.none (h : s.PassesOn c x) (hx : x = .turn ∨ ∃ n, x.nested? = some n) (n : Nat)
    (e : Error) : .resolved (c.nested n) (.error e) ∉ s.log := fun hn => by
  rcases h.onward n e hn with rfl | rfl | ⟨rfl, -⟩ <;> simp [Stage.nested?] at hx

theorem PassesOn.after (h : s.PassesOn c x) (hitem : ∀ n o, item ≠ .settleRun (c.nested n) o)
    (hnext : ∀ n e, .resolved (c.nested n) (.error e) ∈ s.log →
      x' = .closing (.error e) ∨ x' = .settling (.error e) ∨
        x' = .quiet ∧ (s.after i item w).SettledWith c (.error e)) :
    (s.after i item w).PassesOn c x' := by
  have hold : ∀ {n o}, .resolved (c.nested n) o ∈ (s.after i item w).log →
      .resolved (c.nested n) o ∈ s.log := fun {n o} hn =>
    (mem_log_after.1 hn).resolve_right (hitem n o)
  exact ⟨fun n e hn => hnext n e (hold hn), fun n n' e e' hn hn' => h.one n n' e e' (hold hn) (hold hn')⟩

theorem PassesOn.after_settleRun (h : s.PassesOn c x) (hx : x.nested? = some n)
    (hnext : ∀ e, o = .error e → x' = .closing (.error e) ∨ x' = .settling (.error e)) :
    (s.after i (.settleRun (c.nested n) o) w).PassesOn c x' := by
  have hnew : ∀ {n' e}, .resolved (c.nested n') (.error e) ∈
      (s.after i (.settleRun (c.nested n) o) w).log → n' = n ∧ o = .error e := fun {n' e} hn => by
    have hitem := (mem_log_after.1 hn).resolve_left (h.none (.inr ⟨n, hx⟩) n' e)
    obtain ⟨hkey, rfl⟩ := Item.settleRun.inj hitem
    exact ⟨(CallKey.nested_inj.1 hkey).2.symm, rfl⟩
  refine ⟨fun n' e hn => ?_, fun n₁ n₂ e₁ e₂ h₁ h₂ => (hnew h₂).1.trans (hnew h₁).1.symm⟩
  rcases hnext e (hnew hn).2 with hx' | hx'
  · exact .inl hx'
  · exact .inr (.inl hx')

theorem Stage.next_of_error {b : Backend α σ ι} {d : σ} {op : Option (Operation α)} {l l' : LoopState}
    (h : World.Advances b d c op l (.error e) items l') : Stage.next items = .settling (.error e) := by
  cases h
  rfl

variable [Leaf α] {b : Backend α σ ι}

/-- What a call has been settled with stays. -/
theorem SettledWith.after (hs : s.Sound) (h : s.SettledWith c o)
    (hi : s.threads[i]? = some (item :: rest))
    (hb : (s.seenBy rest).Became w items tasks run call)
    (hm : CallMove b (s.seenBy rest) item items call) : (s.after i item w).SettledWith c o := by
  rcases h with ⟨l, hl⟩ | hended
  case inr => exact .inr (List.mem_append_left _ hended)
  have hcall : (s.after i item w).world.call? = call := hb.call
  have hstays : call c = s.world.call? c → (s.after i item w).SettledWith c o := fun hsame =>
    .inl ⟨l, by rw [hcall, hsame, hl]⟩
  by_cases hkey : item.key? = some c
  case neg => exact hstays (hm.other hkey).1
  have hhere : ∀ {p l'}, (s.seenBy rest).call? c = some ⟨p, l'⟩ → p = .settled o := fun {p l'} hc =>
    (Call.mk.inj (Option.some.inj ((show s.world.call? c = _ from hc).symm.trans hl))).1
  have hturned : ∀ {p l₁ l₂}, (s.seenBy rest).call? c = some ⟨p, l₁⟩ →
      call = Function.update s.world.call? c (some ⟨p, l₂⟩) →
        (s.after i item w).SettledWith c o := fun {p l₁ l₂} hc hupdate => by
    obtain rfl := hhere hc
    exact .inl ⟨l₂, by rw [hcall, hupdate, Function.update_self]⟩
  cases hm with
  | spares | uncalled | unreturned | void | turnless | loopless | passed | late =>
    exact hstays rfl
  | called hop hopens =>
    obtain rfl := Option.some.inj hkey
    rw [(hs.call?_of_call hi).1] at hl
    cases hl
  | awaited hc hp =>
    obtain rfl := Option.some.inj hkey
    exact absurd (hhere hc) (hp o)
  | ended hitem hitems =>
    rcases hitem with ⟨rfl, hc⟩ | ⟨hitem, hc⟩
    · obtain rfl := Option.some.inj hkey
      exact .inr (List.mem_append_right _ (by simp [World.noted, hl]))
    · obtain rfl := Option.some.inj (hitem.key?.symm.trans hkey)
      cases hhere hc
  | settled hitem hc =>
    obtain rfl := Option.some.inj (hitem.key?.symm.trans hkey)
    cases hhere hc
  | turns hop hc hturns =>
    obtain rfl := Option.some.inj hkey
    exact hturned hc rfl
  | advances hc hl' hadv =>
    obtain rfl := Option.some.inj hkey
    exact hturned hc rfl
  | waits hc hl' =>
    obtain rfl := Option.some.inj hkey
    exact hturned hc rfl
  | noted hr hc hl' =>
    obtain rfl := Option.some.inj (hr.symm.trans hkey)
    exact hturned hc rfl
  | goesOn hr hc hl' hadv =>
    obtain rfl := Option.some.inj (hr.symm.trans hkey)
    exact hturned hc rfl

omit [Leaf α] in
/-- A call that is about to be settled is settled so. -/
theorem Shows.settledWith (h : s.Shows c (.settling o))
    (hb : (s.seenBy rest).Became w items tasks run call)
    (hm : CallMove b (s.seenBy rest) (.settle c o) items call) :
    (s.after i (.settle c o) w).SettledWith c o := by
  have hcall : (s.after i (.settle c o) w).world.call? = call := hb.call
  have hsettles : ∀ {c' : CallKey} {o' : Outcome},
      (Item.settle c o : Item α ι).Settles c' o' → c' = c ∧ o' = o := fun hitem => by
    rcases hitem with hitem | hitem <;> cases hitem
    exact ⟨rfl, rfl⟩
  cases hm with
  | spares hitem => cases hitem
  | ended hitem hitems =>
    rcases hitem with ⟨hitem, -⟩ | ⟨hitem, hc⟩
    · cases hitem
    · obtain ⟨rfl, rfl⟩ := hsettles hitem
      have hc' : s.world.call? _ = _ := hc
      exact .inr (List.mem_append_right _ (by simp [World.noted, hc']))
  | settled hitem hc =>
    obtain ⟨rfl, rfl⟩ := hsettles hitem
    exact .inl ⟨_, by rw [hcall, Function.update_self]⟩
  | void hitem hc =>
    obtain ⟨rfl, rfl⟩ := hsettles hitem
    obtain ⟨p, l, hy, hp⟩ := h.fits.exists_of_ne_quiet (by simp)
    obtain ⟨o', rfl⟩ := hc p l hy
    exact absurd rfl (hp o')

/-- An item lets a call hand on the error of a nested run. -/
theorem PassesOn.move (hs : s.Sound) (hf : s.Faithful) (hx : s.Shows c x) (h : s.PassesOn c x)
    (hi : s.threads[i]? = some (item :: rest))
    (hb : (s.seenBy rest).Became w items tasks run call)
    (hm : CallMove b (s.seenBy rest) item items call) :
    ∃ x', (s.after i item w).Shows c x' ∧ (s.after i item w).PassesOn c x' := by
  obtain ⟨x', hx', hmove⟩ := hx.move hs hf hi hb hm
  refine ⟨x', hx', ?_⟩
  cases hmove with
  | same =>
    refine h.after (fun n o hitem => ?_) fun n e hn => ?_
    · -- the run is over afterwards, but the stage says that it goes on
      subst hitem
      have hpending := (hx'.nested n).2 (hx.nested_of_settleRun hs hi)
      exact hpending.2 o (mem_log_after.2 (.inr rfl))
    · rcases h.onward n e hn with hx | hx | ⟨hx, hsettled⟩
      · exact .inl hx
      · exact .inr (.inl hx)
      · exact .inr (.inr ⟨hx, hsettled.after hs hi hb hm⟩)
  | body | branch | unread | loop =>
    refine h.after (by simp) fun n e hn => ?_
    exact absurd hn (hs.not_resolved ((hs.call?_of_call hi).2 n) _)
  | turned | lost =>
    exact h.after (by simp) fun n e hn => absurd hn (h.none (.inl rfl) n e)
  | waits =>
    exact h.after (by simp) fun n e hn => absurd hn (h.none (.inr ⟨_, rfl⟩) n e)
  | advances hc hadv =>
    refine h.after (by simp) fun n e hn => ?_
    rcases h.onward n e hn with hx | hx | ⟨hx, -⟩ <;> cases hx
    exact .inr (.inl (Stage.next_of_error hadv))
  | noted =>
    exact h.after_settleRun rfl fun e ho => .inl (by rw [ho])
  | goesOn hc hadv =>
    refine h.after_settleRun rfl fun e ho => .inr ?_
    subst ho
    exact Stage.next_of_error hadv
  | passed =>
    exact h.after_settleRun rfl fun e ho => .inr (by rw [ho])
  | settled =>
    refine h.after (by simp) fun n e hn => ?_
    rcases h.onward n e hn with hx' | hx' | ⟨hx', -⟩ <;> cases hx'
    exact .inr (.inr ⟨rfl, hx.settledWith hb hm⟩)

/-- Every call hands on the error of a nested run. -/
theorem ReachableWhile.passesOn (h : ReachableWhile Faithful b s) (c : CallKey) :
    ∃ x, s.Shows c x ∧ s.PassesOn c x := by
  induction h generalizing c with
  | fresh hw =>
    obtain ⟨x, hx⟩ := (ReachableWhile.fresh hw : ReachableWhile Faithful b _).shows c
    exact ⟨x, hx, fun n e hn => absurd hn (by simp), fun n n' e e' hn => absurd hn (by simp)⟩
  | @move s t ch hr hf hm ih =>
    obtain ⟨x, hx, hpass⟩ := ih c
    have hs := hr.reachable.sound
    rcases hm.spawned with ⟨i, item, rest, w, hi, hw, rfl⟩ | ⟨tasks, agenda, events, hsp, hlog, ha, he⟩
    · obtain ⟨items, tasks, run, call, hb, hc⟩ := World.step_cases rfl hw fun r region hr =>
        hs.known r (hasBegun_of_head (hr ▸ hi))
      exact hpass.move hs hf hx hi hb hc
    · have hold : ∀ {n e}, .resolved (c.nested n) (.error e) ∈ t.log →
          .resolved (c.nested n) (.error e) ∈ s.log := fun {n e} hn => by
        rw [hlog, List.mem_append] at hn
        refine hn.resolve_right fun hmem => ?_
        obtain ⟨c', hc'⟩ := he _ hmem
        cases hc'
      refine ⟨x, hx.spawned hsp hlog ha he, fun n e hn => ?_, fun n n' e e' hn hn' =>
        hpass.one n n' e e' (hold hn) (hold hn')⟩
      refine (hpass.onward n e (hold hn)).imp_right (Or.imp_right (And.imp_right ?_))
      rintro (⟨l, hl⟩ | hended)
      · exact .inl ⟨l, by rw [hsp.call, hl]⟩
      · exact .inr (by simp [hlog, hended])

/-- A call inside which a nested run has failed ends with that failure. -/
theorem ReachableWhile.ended_of_nested (h : ReachableWhile Faithful b s)
    (hn : .resolved (c.nested n) (.error e) ∈ s.log) (hc : .ended c o ∈ s.log) : o = .error e := by
  obtain ⟨x, hx, hpass⟩ := h.passesOn c
  have hs := h.reachable.sound
  have hover : s.world.call? c = none := by
    simpa [view, NodeState.progress?] using ((hs.run c.run).exists_shown hc).progress
  have hquiet : x = .quiet := by
    have := hx.fits
    rw [hover] at this
    exact this.eq_quiet
  subst hquiet
  rcases hpass.onward n e hn with hx | hx | ⟨-, ⟨l, hl⟩ | hended⟩
  · cases hx
  · cases hx
  · rw [hover] at hl
    cases hl
  · exact hs.ended_unique hended hc

theorem ReachableWhile.nested_unique (h : ReachableWhile Faithful b s) {n' : Nat} {e' : Error}
    (hn : .resolved (c.nested n) (.error e) ∈ s.log)
    (hn' : .resolved (c.nested n') (.error e') ∈ s.log) : n' = n := by
  obtain ⟨x, -, hpass⟩ := h.passesOn c
  exact hpass.one n n' e e' hn hn'

/-! ### From the operations of a run to the run -/

/-- The operation is the earliest of its run that has failed. -/
structure FirstFailure (s : Crew α σ ι) (r : RunKey) (i : Nat) (e : Error) : Prop where
  failed : .ended ⟨r, i⟩ (.error e) ∈ s.log
  first : ∀ k < i, ¬ s.HasFailed ⟨r, k⟩

omit [Leaf α] in
theorem FirstFailure.le {j : Nat} {e' : Error} (h : s.FirstFailure r i e)
    (h' : s.FirstFailure r j e') : i ≤ j := by
  by_contra hlt
  exact h.first j (by omega) ⟨e', h'.failed⟩

theorem FirstFailure.unique {j : Nat} {e' : Error} (hs : s.Sound) (h : s.FirstFailure r i e)
    (h' : s.FirstFailure r j e') : j = i ∧ e' = e := by
  obtain rfl := Nat.le_antisymm (h.le h') (h'.le h)
  exact ⟨rfl, Except.error.inj (hs.ended_unique h.failed h'.failed)⟩

omit [Leaf α] in
theorem exists_op_infoAt {region : Program α} {j : Nat} (hj : j < region.ops.length) :
    ∃ op, region.ops[j]? = some op ∧ infoAt region j = op.info :=
  ⟨region.ops[j], by simp [hj], by simp [infoAt, hj]⟩

omit [Leaf α] in
theorem mem_begun_of_regions {region : Program α} (h : (s.view r).regions = [region]) :
    (r, region) ∈ s.begun := mem_begun_iff.2 (by simp [h])

/-- A run that has failed was abandoned, or one of its operations has failed, with that error but for
the attribution. -/
theorem Reachable.exists_failed (h : Reachable b s) (ho : .resolved r (.error e) ∈ s.log) :
    e = .promiseDropped ∨ ∃ region i e' op, (r, region) ∈ s.begun ∧ region.ops[i]? = some op ∧
      .ended ⟨r, i⟩ (.error e') ∈ s.log ∧ e = e'.attributedTo op.info := by
  have hcount := count_resolved_pos ho
  cases h.sound.run r with
  | idle hv =>
    rw [hv.count _ (by simp)] at hcount
    cases hcount
  | empty hv =>
    rw [hv.count _ (by simp) (by simp) (by simp)] at hcount
    cases hcount
  | @ordered region st fin hv =>
    obtain ⟨j, e', hj, he⟩ := hv.bad e (hv.fin_eq_some (Nat.add_pos_right _ hcount))
    obtain ⟨op, hop, hinfo⟩ := exists_op_infoAt (hv.follows.lt_length (j := j) (by rw [hj]; rfl))
    exact .inr ⟨region, j, e', op, mem_begun_of_regions hv.regions, hop,
      (ended_mem_iff_ordered hv j _).2 hj, hinfo ▸ he⟩
  | @scheduled region st t holders fin hv =>
    have hout := hv.outcome _ (hv.fin_eq_some (Nat.add_pos_right _ hcount))
    by_cases hcomplete : t.isComplete
    case neg =>
      rw [if_neg hcomplete] at hout
      exact .inl (Except.error.inj hout)
    rw [if_pos hcomplete, Schedule.outcome] at hout
    cases hfirst : t.firstError with
    | none =>
      rw [hfirst] at hout
      cases hout
    | some first =>
      obtain ⟨j, e₁⟩ := first
      rw [hfirst] at hout
      obtain rfl := Except.error.inj hout
      obtain ⟨⟨e', hj, he⟩, -⟩ := hv.records.first j e hfirst
      obtain ⟨op, hop, hinfo⟩ := exists_op_infoAt (hv.follows.lt_length (j := j) (by rw [hj]; rfl))
      exact .inr ⟨region, j, e', op, mem_begun_of_regions hv.regions, hop,
        (ended_mem_iff hv j _).2 hj, hinfo ▸ he⟩

/-- A run with no task lost fails with its earliest failure, attributed to the operation. -/
theorem Reachable.exists_firstFailure (h : Reachable b s) (hkept : ∀ j, .dropped ⟨r, j⟩ ∉ s.log)
    (ho : .resolved r (.error e) ∈ s.log) : ∃ region i e' op, (r, region) ∈ s.begun ∧
      region.ops[i]? = some op ∧ s.FirstFailure r i e' ∧ e = e'.attributedTo op.info := by
  have hcount := count_resolved_pos ho
  cases h.sound.run r with
  | idle hv =>
    rw [hv.count _ (by simp)] at hcount
    cases hcount
  | empty hv =>
    rw [hv.count _ (by simp) (by simp) (by simp)] at hcount
    cases hcount
  | @ordered region st fin hv =>
    obtain ⟨j, e', hj, he⟩ := hv.bad e (hv.fin_eq_some (Nat.add_pos_right _ hcount))
    have hwait : (st j).isWaiting = false := by rw [hj]; rfl
    obtain ⟨op, hop, hinfo⟩ := exists_op_infoAt (hv.follows.lt_length hwait)
    refine ⟨region, j, e', op, mem_begun_of_regions hv.regions, hop,
      ⟨(ended_mem_iff_ordered hv j _).2 hj, ?_⟩, hinfo ▸ he⟩
    rintro k hk ⟨e'', hk'⟩
    rw [ended_mem_iff_ordered hv, hv.eq_ended hwait hk] at hk'
    cases hk'
  | @scheduled region st t holders fin hv =>
    have hr : s.Schedules r region := ⟨mem_begun_of_regions hv.regions, hv.concurrent, hv.unordered⟩
    obtain ⟨st, t, holders, hv, hends⟩ := h.exists_comesTo hr hkept ho
    have hex : ∃ j e', st j = .ended (.error e') := by
      by_contra hgood
      have := hends.good fun j e' hj => hgood ⟨j, e', hj⟩
      cases this
    classical
    obtain ⟨e', hj⟩ := Nat.find_spec hex
    have hmin : ∀ k < Nat.find hex, ∀ e', st k ≠ .ended (.error e') :=
      fun k hk e' hk' => Nat.find_min hex hk ⟨e', hk'⟩
    have hout := hends.first _ e' hj hmin
    obtain ⟨op, hop, hinfo⟩ := exists_op_infoAt
      (hends.follows.lt_length (j := Nat.find hex) (by rw [hj]; rfl))
    refine ⟨region, Nat.find hex, e', op, hr.begun, hop, ⟨(ended_mem_iff hv _ _).2 hj, ?_⟩,
      hinfo ▸ Except.error.inj hout⟩
    rintro k hk ⟨e'', hk'⟩
    exact hmin k hk e'' ((ended_mem_iff hv k _).1 hk')

/-! ### From the outermost run to the operation that failed -/

/-- The way down from a run by the earliest failure of each run, to an operation that failed by
itself with this error: no nested run of it has failed. -/
inductive Traces (s : Crew α σ ι) : RunKey → CallKey → Error → Prop
  | here {r : RunKey} {i : Nat} {e : Error} (hfirst : s.FirstFailure r i e)
      (hown : ∀ n e', .resolved ((CallKey.mk r i).nested n) (.error e') ∉ s.log) :
    Traces s r ⟨r, i⟩ e
  | inside {r : RunKey} {i n : Nat} {e e' e'' : Error} {c : CallKey} (hfirst : s.FirstFailure r i e)
      (hnested : .resolved ((CallKey.mk r i).nested n) (.error e') ∈ s.log)
      (h : Traces s ((CallKey.mk r i).nested n) c e'') : Traces s r c e''

/-- There is only one way down. -/
theorem Traces.unique {c' : CallKey} {e' : Error} (hs : ReachableWhile Faithful b s)
    (h : s.Traces r c e) (h' : s.Traces r c' e') : c' = c ∧ e' = e := by
  have hsound := hs.reachable.sound
  induction h generalizing c' e' with
  | here hfirst hown =>
    cases h' with
    | here hfirst' hown' =>
      obtain ⟨rfl, rfl⟩ := hfirst.unique hsound hfirst'
      exact ⟨rfl, rfl⟩
    | inside hfirst' hnested' h' =>
      obtain ⟨rfl, -⟩ := hfirst.unique hsound hfirst'
      exact absurd hnested' (hown _ _)
  | inside hfirst hnested h ih =>
    cases h' with
    | here hfirst' hown' =>
      obtain ⟨rfl, -⟩ := hfirst.unique hsound hfirst'
      exact absurd hnested (hown' _ _)
    | inside hfirst' hnested' h' =>
      obtain ⟨rfl, -⟩ := hfirst.unique hsound hfirst'
      obtain rfl := hs.nested_unique hnested hnested'
      exact ih h'

omit [Leaf α] in
theorem sizeOf_nested_lt {inner : Program α} {op : Operation α} (hinner : inner ∈ op.nested) :
    sizeOf inner < sizeOf op := by
  cases op with
  | leaf => cases hinner
  | call info body =>
    obtain rfl := List.mem_singleton.1 hinner
    rw [Operation.call.sizeOf_spec]
    omega
  | conditional info index type branches =>
    have : sizeOf inner < sizeOf branches := List.sizeOf_lt_of_mem hinner
    rw [Operation.conditional.sizeOf_spec]
    omega
  | loop info predicate condition body trips =>
    simp only [Operation.nested, List.mem_cons, List.not_mem_nil, or_false] at hinner
    rw [Operation.loop.sizeOf_spec]
    rcases hinner with rfl | rfl <;> omega

omit [Leaf α] in
theorem sizeOf_lt_of_mem_ops {region : Program α} {op : Operation α} (hop : op ∈ region.ops) :
    sizeOf op < sizeOf region := by
  have hlt := List.sizeOf_lt_of_mem hop
  obtain ⟨ops, reduction, verify⟩ := region
  rw [Region.mk.sizeOf_spec]
  simp only at hlt
  omega

omit [Leaf α] in
theorem sizeOf_lt_of_mem_nested {region inner : Program α} {op : Operation α} (hop : op ∈ region.ops)
    (hinner : inner ∈ op.nested) : sizeOf inner < sizeOf region :=
  (sizeOf_nested_lt hinner).trans (sizeOf_lt_of_mem_ops hop)

/-- A run with no task lost that has failed, failed with the error of the operation that the way down
from it leads to. -/
theorem ReachableWhile.exists_traces (h : ReachableWhile Faithful b s) {region : Program α}
    (hkept : ∀ c, c.run.host = r.host → c.run.execution = r.execution → .dropped c ∉ s.log)
    (hr : (r, region) ∈ s.begun) (ho : .resolved r (.error e) ∈ s.log) :
    ∃ c e' op, s.Traces r c e' ∧ s.Belongs c op ∧ e = e'.attributedTo op.info := by
  have hs := h.reachable.sound
  induction hsize : sizeOf region using Nat.strong_induction_on generalizing region r e with
  | _ size ih =>
    obtain ⟨region', i, e', op, hr', hop, hfirst, rfl⟩ :=
      h.reachable.exists_firstFailure (fun j => hkept _ rfl rfl) ho
    obtain rfl := hs.region_unique hr hr'
    have hbelongs : s.Belongs ⟨r, i⟩ op := ⟨region', hr, hop⟩
    by_cases hnested : ∃ n e'', .resolved ((CallKey.mk r i).nested n) (.error e'') ∈ s.log
    · obtain ⟨n, e'', hn⟩ := hnested
      obtain ⟨inner, hinner⟩ := hs.exists_begun hn
      obtain ⟨op', hop', hmem⟩ := h.reachable.mem_nested (.inl hinner)
      obtain rfl := hop'.unique hs hbelongs
      have hlt := sizeOf_lt_of_mem_nested (List.mem_of_getElem? hop) hmem
      have hkept' : ∀ c', c'.run.host = ((CallKey.mk r i).nested n).host →
          c'.run.execution = ((CallKey.mk r i).nested n).execution → .dropped c' ∉ s.log := hkept
      obtain ⟨c, e₀, op₀, htraces, hbelongs₀, rfl⟩ := ih _ (hsize ▸ hlt) hkept' hinner hn rfl
      have he := h.ended_of_nested hn hfirst.failed
      refine ⟨c, e₀, op₀, .inside hfirst hn htraces, hbelongs₀, ?_⟩
      rw [Except.error.inj he, Error.attributedTo_attributedTo]
    · exact ⟨_, e', op, .here hfirst fun n e'' hn => hnested ⟨n, e'', hn⟩, hbelongs, rfl⟩

omit [Leaf α] in
theorem Traces.ended (h : s.Traces r c e) : .ended c (.error e) ∈ s.log := by
  induction h with
  | here hfirst => exact hfirst.failed
  | inside _ _ _ ih => exact ih

/-- When an execution has failed and no task of it was lost, then there is one way down from its
outermost run by the earliest failure of each run, through operations inside which a nested run has
failed, to an operation that failed by itself. The execution has failed with the error of that
operation, of the same kind, message and cause; it belongs to the operation if it belonged to none,
and else to the one it belonged to. -/
theorem ReachableWhile.attribution (h : ReachableWhile Faithful b s) {host execution : Nat}
    (hkept : ∀ c, c.run.host = host → c.run.execution = execution → .dropped c ∉ s.log)
    (ho : s.world.outcome? host execution = some (.error e)) :
    ∃ c e' op, s.Traces ⟨host, execution, []⟩ c e' ∧
      (∀ c₁ e₁, s.Traces ⟨host, execution, []⟩ c₁ e₁ → c₁ = c ∧ e₁ = e') ∧
      s.Belongs c op ∧ .ended c (.error e') ∈ s.log ∧ e.kind = e'.kind ∧ e.message = e'.message ∧
      e.cause? = e'.cause? ∧ e.causeText = e'.causeText ∧
      e.context = if e'.context.isEmpty then .ofInfo op.info else e'.context := by
  have hresolved := h.reachable.resolved_of_outcome ho
  obtain ⟨region, hr⟩ := h.reachable.sound.exists_begun hresolved
  obtain ⟨c, e', op, htraces, hbelongs, rfl⟩ := h.exists_traces hkept hr hresolved
  exact ⟨c, e', op, htraces, fun c₁ e₁ h₁ => htraces.unique h h₁, hbelongs, htraces.ended, by simp,
    by simp, by simp, by simp, e'.context_attributedTo op.info⟩

def secondTurnFails (c : CallKey) : Outcome :=
  if c.run.scope = [(0, 0), (1, 1)] then .error .promiseDropped else .ok ()

def nestedDone : Crew Primitive Unit Unit :=
  single (.ending secondTurnFails) 50
    [.leaf { name := "a" } (.scripted .copy {} .succeed),
      .loop { name := "w" } ⟨0, 0, 1⟩ { ops := [] } { ops := [.call { name := "f" } { ops :=
        [.leaf { name := "b" } (.scripted .copy {} .succeed)] }] } (some 2)]

theorem attribution_nestedDone : ∃ c e' op, nestedDone.Traces ⟨0, 0, []⟩ c e' ∧
    nestedDone.Belongs c op ∧ nestedDone.world.outcome? 0 0 =
      some (.error (Error.promiseDropped.attributedTo { name := "b" })) ∧
    (Error.promiseDropped.attributedTo { name := "b" }).context =
      if e'.context.isEmpty then .ofInfo op.info else e'.context := by
  have hreach : ReachableWhile Faithful (.ending secondTurnFails) nestedDone :=
    ReachableWhile.acts ((ReachableWhile.fresh (isFresh_alone _)).move (by decide +kernel)
      (.execute rfl)) 0 50 (by decide +kernel)
  have ho : nestedDone.world.outcome? 0 0 =
      some (.error (Error.promiseDropped.attributedTo { name := "b" })) := by decide +kernel
  obtain ⟨c, e', op, htraces, -, hbelongs, -, -, -, -, -, hcontext⟩ :=
    hreach.attribution (fun c _ _ => not_dropped_of_all (by decide +kernel) c) ho
  exact ⟨c, e', op, htraces, hbelongs, ho, hcontext⟩

end Crew

end Machine

end OpFlow
