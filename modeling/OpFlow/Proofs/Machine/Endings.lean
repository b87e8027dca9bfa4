import OpFlow.Proofs.Machine.Attribution
import OpFlow.Proofs.Machine.Device
import OpFlow.Proofs.Operation.Occurrence

/-!
What ends an operation. A call inside which nothing goes on, because it is one of a leaf operation or
has not been made yet, ends as a thread is to end it; and what makes a thread do so is the start of
the operation, or the backend. So whatever ends it was to end it before, or the backend has just asked
for that. And what a thread is to end, it goes on to end, until no thread has anything to do.
-/
namespace OpFlow.Machine

variable {α σ ι : Type} {b : Backend α σ ι} {c : CallKey} {o : Outcome}

namespace World

/-- That an operation has ended is noted when its start returns or when it is settled. -/
theorem mem_noted_ended {w : World α σ ι} {item : Item α ι} (h : .ended c o ∈ w.noted item) : ∃ l,
    item = .returned c ∧ w.call? c = some ⟨.settled o, l⟩ ∨
      item.Settles c o ∧ w.call? c = some ⟨.awaited, l⟩ := by
  have hsettles : ∀ {c' o'} {item : Item α ι}, item.Settles c' o' →
      .ended c o ∈ w.noted (.settle c' o') →
      ∃ l, item = .returned c ∧ w.call? c = some ⟨.settled o, l⟩ ∨
        item.Settles c o ∧ w.call? c = some ⟨.awaited, l⟩ := fun {c' o' item} hitem h => by
    simp only [noted] at h
    split at h
    case h_1 l hc =>
      obtain ⟨rfl, rfl⟩ := Event.ended.inj (List.mem_singleton.1 h)
      exact ⟨l, .inr ⟨hitem, hc⟩⟩
    case h_2 => cases h
  cases item with
  | returned c' =>
    simp only [noted] at h
    split at h
    case h_1 o' l hc =>
      obtain ⟨rfl, rfl⟩ := Event.ended.inj (List.mem_singleton.1 h)
      exact ⟨l, .inl ⟨rfl, hc⟩⟩
    case h_2 => cases h
  | settle c' o' => exact hsettles (.inl rfl) h
  | effect e =>
    cases e with
    | settle c' o' => exact hsettles (.inr rfl) h
    | work | submit => cases h
  | start | settleRun => cases List.mem_singleton.1 h
  | release | iterated => cases h
  | visit | submit | call | iterate =>
    simp only [noted] at h
    repeat' split at h
    all_goals first | cases List.mem_singleton.1 h | cases h

theorem ended_mem_noted {w : World α σ ι} {item : Item α ι} {l : Option LoopState}
    (h : item = .returned c ∧ w.call? c = some ⟨.settled o, l⟩ ∨
      item.Settles c o ∧ w.call? c = some ⟨.awaited, l⟩) : .ended c o ∈ w.noted item := by
  rcases h with ⟨rfl, hc⟩ | ⟨rfl | rfl, hc⟩ <;> simp [noted, hc]

end World

/-- What a call has settled by an item was settled before, or is settled as the item says. -/
theorem CallMove.settles {w : World α σ ι} {item : Item α ι} {items : List (Item α ι)}
    {call : CallKey → Option Call} {y' : Call} (h : CallMove b w item items call)
    (hy' : call c = some y') (ho : y'.progress = .settled o) :
    (∃ y, w.call? c = some y ∧ y.progress = .settled o) ∨ item.Settles c o ∧ w.call? c ≠ none := by
  have hsame : w.call? c = some y' →
      (∃ y, w.call? c = some y ∧ y.progress = .settled o) ∨ item.Settles c o ∧ w.call? c ≠ none :=
    fun hz => .inl ⟨y', hz, ho⟩
  have hupdate : ∀ {c' : CallKey} {z : Option Call}, Function.update w.call? c' z c = some y' →
      z = some y' ∧ c = c' ∨ w.call? c = some y' := fun {c' z} hz => by
    by_cases hc : c = c'
    · rw [hc, Function.update_self] at hz
      exact .inl ⟨hz, hc⟩
    · rw [Function.update_of_ne hc] at hz
      exact .inr hz
  -- a call that goes on without being settled
  have hgoesOn : ∀ {c' : CallKey} {p : Progress} {l l' : Option LoopState},
      w.call? c' = some ⟨p, l⟩ → Function.update w.call? c' (some ⟨p, l'⟩) c = some y' →
        (∃ y, w.call? c = some y ∧ y.progress = .settled o) ∨ item.Settles c o ∧ w.call? c ≠ none :=
    fun hc hz => (hupdate hz).elim (fun ⟨hz, heq⟩ => .inl ⟨_, heq ▸ hc, by cases hz; exact ho⟩) hsame
  cases h with
  | spares | uncalled | unreturned | void | turnless | loopless | passed | late => exact hsame hy'
  | called | awaited =>
    refine (hupdate hy').elim (fun ⟨hz, _⟩ => ?_) hsame
    obtain rfl := Option.some.inj hz
    cases ho
  | ended => exact (hupdate hy').elim (fun ⟨hz, _⟩ => nomatch hz) hsame
  | settled hitem hc =>
    refine (hupdate hy').elim (fun ⟨hz, heq⟩ => .inr ?_) hsame
    obtain rfl := Option.some.inj hz
    obtain rfl := Progress.settled.inj ho
    exact heq ▸ ⟨hitem, by simp [hc]⟩
  | turns _ hc | advances hc | waits hc | noted _ hc | goesOn _ hc => exact hgoesOn hc hy'

/-- What becomes of a call that an item settles. -/
theorem CallMove.settling {w : World α σ ι} {item : Item α ι} {items : List (Item α ι)}
    {call : CallKey → Option Call} (h : CallMove b w item items call) (hx : item.Settles c o) :
    (∃ l, w.call? c = some ⟨.entered, l⟩ ∧ items = [] ∧ call c = some ⟨.settled o, l⟩) ∨
      (∃ l, w.call? c = some ⟨.awaited, l⟩) ∨
      call = w.call? ∧ ∀ p l, w.call? c = some ⟨p, l⟩ → ∃ o', p = .settled o' := by
  have hinj : ∀ {c' o'}, item.Settles c' o' → c' = c ∧ o' = o := fun h => by
    rcases hx with rfl | rfl <;> rcases h with h | h <;> cases h <;> exact ⟨rfl, rfl⟩
  cases h with
  | ended hitem =>
    rcases hitem with ⟨rfl, -⟩ | ⟨hitem, hawaited⟩
    · rcases hx with hx | hx <;> cases hx
    · obtain ⟨rfl, rfl⟩ := hinj hitem
      exact .inr (.inl ⟨_, hawaited⟩)
  | settled hitem hentered =>
    obtain ⟨rfl, rfl⟩ := hinj hitem
    exact .inl ⟨_, hentered, rfl, Function.update_self ..⟩
  | void hitem hvoid =>
    obtain ⟨rfl, rfl⟩ := hinj hitem
    exact .inr (.inr ⟨rfl, hvoid⟩)
  | spares hitem => rcases hx with rfl | rfl <;> exact hitem.elim
  | _ => rcases hx with hx | hx <;> cases hx

/-- A call that is settled stays so until its start returns, unless it is made again. -/
theorem CallMove.stays_settled {w : World α σ ι} {item : Item α ι} {items : List (Item α ι)}
    {call : CallKey → Option Call} {l : Option LoopState} (h : CallMove b w item items call)
    (hc : w.call? c = some ⟨.settled o, l⟩) :
    (∃ l', call c = some ⟨.settled o, l'⟩) ∨ item = .returned c ∨ item = .call c := by
  have hupdate : ∀ {c' : CallKey} {z : Option Call},
      (c' = c → (∃ l', z = some ⟨.settled o, l'⟩) ∨ item = .returned c ∨ item = .call c) →
        (∃ l', Function.update w.call? c' z c = some ⟨.settled o, l'⟩) ∨
          item = .returned c ∨ item = .call c := fun {c' z} h => by
    by_cases heq : c' = c
    · subst heq
      rw [Function.update_self]
      exact h rfl
    · rw [Function.update_of_ne (Ne.symm heq)]
      exact .inl ⟨l, hc⟩
  have hfound : ∀ {c' : CallKey} {y : Call}, w.call? c' = some y → c' = c → y = ⟨.settled o, l⟩ :=
    fun hy heq => Option.some.inj ((heq ▸ hy).symm.trans hc)
  have hgoesOn : ∀ {c' : CallKey} {p : Progress} {l₁ l₂ : Option LoopState},
      w.call? c' = some ⟨p, l₁⟩ → c' = c → ∃ l', (some ⟨p, l₂⟩ : Option Call) = some ⟨.settled o, l'⟩ :=
    fun hy heq => by
      cases hfound hy heq
      exact ⟨_, rfl⟩
  cases h with
  | spares | uncalled | unreturned | void | turnless | loopless | passed | late => exact .inl ⟨l, hc⟩
  | called => exact hupdate fun heq => .inr (.inr (heq ▸ rfl))
  | awaited hy hp =>
    refine hupdate fun heq => ?_
    cases hfound hy heq
    exact absurd rfl (hp o)
  | ended hitem =>
    refine hupdate fun heq => ?_
    rcases hitem with ⟨rfl, -⟩ | ⟨-, hy⟩
    · exact .inr (.inl (heq ▸ rfl))
    · cases hfound hy heq
  | settled _ hy => exact hupdate fun heq => by cases hfound hy heq
  | turns _ hy | advances hy | waits hy | noted _ hy | goesOn _ hy =>
    exact hupdate fun heq => .inl (hgoesOn hy heq)

namespace Crew

variable {s t : Crew α σ ι} {i : Nat} {item : Item α ι} {rest items : List (Item α ι)}
  {call : CallKey → Option Call} {ch : Choice σ ι}

def Demanded (s : Crew α σ ι) (c : CallKey) (o : Outcome) : Prop :=
  ∃ items ∈ s.threads, .effect (.settle c o) ∈ items

/-- A thread is to end the call so, or it has ended so. -/
def Ending (s : Crew α σ ι) (c : CallKey) (o : Outcome) : Prop :=
  (∃ items ∈ s.threads, ∃ x ∈ items, x.Settles c o) ∨ s.SettledWith c o

def Launches (s : Crew α σ ι) (ch : Choice σ ι) (c : CallKey) : Prop :=
  s.Faces ch (.call c) ∧ ∃ info a, s.world.operation? c = some (.leaf info a)

variable [Leaf α]

/-- Where nothing goes on inside a call, only a panic of its start brings a token that settles it. -/
theorem Shows.panicked_of_settle_mem (hs : s.Sound) (h : s.Shows c .quiet)
    (hi : s.threads[i]? = some (item :: rest))
    (hm : CallMove b (s.seenBy rest) item items call)
    (hitem : item = .call c → ∀ op, s.world.operation? c = some op → ∃ info a, op = .leaf info a)
    (hmem : .settle c o ∈ items) : item = .call c ∧
      (∃ info a, s.world.operation? c = some (.leaf info a)) ∧ ∃ text, o = .error (.panicked text) := by
  by_cases hkey : item.key? = some c
  case neg =>
    obtain ⟨-, c', hne, hof⟩ := hm.other hkey
    exact absurd ((hof _ hmem).1 c (.settle o) rfl).symm hne
  cases hm with
  | spares _ hitems | ended _ hitems => cases (hitems _ hmem).token
  | uncalled | awaited | unreturned | settled | void | turnless | waits | loopless | noted | late =>
    cases hmem
  | called hop hopens =>
    obtain rfl := Option.some.inj hkey
    obtain ⟨info, a, rfl⟩ := hitem rfl _ hop
    refine ⟨rfl, ⟨info, a, hop⟩, ?_⟩
    cases hopens with
    | leaf => simp at hmem
    | panicked => exact ⟨_, by simpa using hmem⟩
  | turns =>
    obtain rfl := Option.some.inj hkey
    exact absurd (h.pos_of_token hi rfl nofun) (Nat.lt_irrefl 0)
  | advances =>
    obtain rfl := Option.some.inj hkey
    exact absurd (h.pos_of_token hi rfl nofun) (Nat.lt_irrefl 0)
  | passed hr | goesOn hr =>
    obtain rfl := Option.some.inj (hr.symm.trans hkey)
    obtain ⟨n, rfl⟩ := RunKey.eq_nested hr
    cases h.nested_of_settleRun hs hi

omit [Leaf α] in
theorem demanded_of_spawn {agenda : List (Item α ι)} (hthreads : t.threads = s.threads ++ [agenda])
    (h : t.Demanded c o) : s.Demanded c o ∨ .effect (.settle c o) ∈ agenda := by
  obtain ⟨items, hitems, hmem⟩ := h
  rw [hthreads, List.mem_append, List.mem_singleton] at hitems
  rcases hitems with hitems | rfl
  · exact .inl ⟨items, hitems, hmem⟩
  · exact .inr hmem

/-- The end of a call that is asked for was asked for before, or the backend has just asked for it. -/
theorem Move.demanded (hm : Move b ch s t) (h : t.Demanded c o) :
    s.Demanded c o ∨ ∃ f, Turn b s ch f ∧ .settle c o ∈ (f s.world.device).2 := by
  have hmap : ∀ {effects : List (Effect ι)}, (Item.effect (.settle c o) : Item α ι) ∈
      effects.map .effect → .settle c o ∈ effects := by simp
  cases hm with
  | @act _ i item rest w hi hw =>
    obtain ⟨items, hitems, hmem⟩ := h
    rcases List.mem_or_eq_of_mem_set hitems with hold | rfl
    · exact .inl ⟨items, hold, hmem⟩
    obtain ⟨f, hf, -, heffects⟩ := turn_item b hi
    rcases World.mem_agenda_step? (w := s.seenBy (item :: rest)) rfl hw hmem with h | h | ⟨_, _, -, h⟩
    · exact .inl ⟨_, mem_threads hi, List.mem_cons_of_mem _ h⟩
    · exact .inr ⟨f, hf, heffects ▸ h⟩
    · cases h
  | @take _ _ _ _ task =>
    refine .inl ((demanded_of_spawn rfl h).resolve_right fun hmem => ?_)
    cases task <;> simp [World.tasks] at hmem
  | @drop _ _ _ _ task hk hq =>
    cases task with
    | visit r j => exact .inl ((demanded_of_spawn rfl h).resolve_right (by simp))
    | work y =>
      have howes : s.Owes y := .inr ((World.kept_give hk hq).mem_iff.2 List.mem_cons_self)
      exact (demanded_of_spawn rfl h).imp_right fun hmem => ⟨_, .discard howes, hmap hmem⟩
  | outside change => exact (demanded_of_spawn rfl h).imp_right fun hmem => ⟨_, .outside, hmap hmem⟩
  | execute => exact .inl ((demanded_of_spawn rfl h).resolve_right (by simp))

/-- A token that settles the call was there before, if nothing goes on inside it, or its start has
just panicked. -/
theorem Move.settle_mem (hm : Move b ch s t) (hs : s.Sound) (hx : s.Shows c .quiet)
    (hcall : s.Faces ch (.call c) → ∀ op, s.world.operation? c = some op → ∃ info a, op = .leaf info a)
    {items : List (Item α ι)} (hitems : items ∈ t.threads) (hmem : .settle c o ∈ items) :
    (∃ items ∈ s.threads, .settle c o ∈ items) ∨
      s.Launches ch c ∧ ∃ text, o = .error (.panicked text) := by
  by_cases hact : ∃ i, ch = .act i
  · obtain ⟨i, rfl⟩ := hact
    cases hm with
    | @act _ i item rest w hi hw =>
      obtain ⟨new, tasks, run, call, hb, hmove⟩ := World.step_cases rfl hw fun r region hr =>
        hs.known r (hasBegun_of_head (hr ▸ hi))
      rcases List.mem_or_eq_of_mem_set hitems with hold | rfl
      · exact .inl ⟨items, hold, hmem⟩
      · rw [hb.agenda] at hmem
        rcases List.mem_append.1 hmem with hnew | hmem
        · obtain ⟨rfl, hleaf, hpanic⟩ := hx.panicked_of_settle_mem hs hi hmove
            (fun heq => hcall ⟨i, rest, rfl, heq ▸ hi⟩) hnew
          exact .inr ⟨⟨⟨i, rest, rfl, hi⟩, hleaf⟩, hpanic⟩
        · exact .inl ⟨_, mem_threads hi, List.mem_cons_of_mem _ hmem⟩
  · obtain ⟨tasks, agenda, events, hsp, -, hplain, -⟩ :=
      hm.spawned_of_ne_act fun i hi => hact ⟨i, hi⟩
    rw [hsp.threads, List.mem_append, List.mem_singleton] at hitems
    rcases hitems with hitems | rfl
    · exact .inl ⟨items, hitems, hmem⟩
    · cases (hplain _ hmem).1

/-- What a call is settled with now, it was settled with before, or a thread was to settle it so
while it was in flight. -/
theorem Move.settledWith (hm : Move b ch s t) (hs : s.Sound) (h : t.SettledWith c o) :
    (∃ items ∈ s.threads, ∃ x ∈ items, x.Settles c o) ∧ s.world.call? c ≠ none ∨
      s.SettledWith c o := by
  rcases hm.spawned with ⟨i, item, rest, w, hi, hw, rfl⟩ | ⟨tasks, agenda, events, hsp, hlog, -, he⟩
  · obtain ⟨items, tasks, run, call, hb, hmove⟩ := World.step_cases rfl hw fun r region hr =>
      hs.known r (hasBegun_of_head (hr ▸ hi))
    have hhere : item.Settles c o → ∃ items ∈ s.threads, ∃ x ∈ items, x.Settles c o := fun h =>
      ⟨_, mem_threads hi, _, List.mem_cons_self, h⟩
    rcases h with ⟨l, hl⟩ | hended
    · rcases hmove.settles ((congrFun hb.call c).symm.trans hl) rfl with ⟨⟨p, l'⟩, hy, rfl⟩ | ⟨h, hy⟩
      · exact .inr (.inl ⟨l', hy⟩)
      · exact .inl ⟨hhere h, hy⟩
    · rcases List.mem_append.1 hended with hended | hended
      · exact .inr (.inr hended)
      · obtain ⟨l, ⟨-, hy⟩ | ⟨h, hy⟩⟩ := World.mem_noted_ended hended
        · exact .inr (.inl ⟨l, hy⟩)
        · exact .inl ⟨hhere h, by simp [hy]⟩
  · rcases h with ⟨l, hl⟩ | hended
    · exact .inr (.inl ⟨l, hsp.call ▸ hl⟩)
    · rw [hlog, List.mem_append] at hended
      refine .inr (.inr (hended.resolve_right fun hmem => ?_))
      obtain ⟨c', hc'⟩ := he _ hmem
      cases hc'

theorem Move.ending_of_settledWith (hm : Move b ch s t) (hs : s.Sound) (h : t.SettledWith c o) :
    s.Ending c o := (hm.settledWith hs h).imp_left And.left

theorem Move.ending (hm : Move b ch s t) (hs : s.Sound) (hx : s.Shows c .quiet)
    (hcall : s.Faces ch (.call c) → ∀ op, s.world.operation? c = some op → ∃ info a, op = .leaf info a)
    (h : t.Ending c o) : s.Ending c o ∨ (∃ f, Turn b s ch f ∧ .settle c o ∈ (f s.world.device).2) ∨
      s.Launches ch c ∧ ∃ text, o = .error (.panicked text) := by
  rcases h with ⟨items, hitems, x, hmem, rfl | rfl⟩ | h
  · rcases hm.settle_mem hs hx hcall hitems hmem with ⟨items, hitems, hmem⟩ | hlaunches
    · exact .inl (.inl ⟨items, hitems, _, hmem, .inl rfl⟩)
    · exact .inr (.inr hlaunches)
  · rcases hm.demanded ⟨items, hitems, hmem⟩ with ⟨items, hitems, hmem⟩ | hturn
    · exact .inl (.inl ⟨items, hitems, _, hmem, .inr rfl⟩)
    · exact .inr (.inl hturn)
  · exact .inl (hm.ending_of_settledWith hs h)

omit [Leaf α] in
theorem threads_after {w : World α σ ι} {tasks : List (Task ι)} {run : RunKey → Option (Run α)}
    (hi : s.threads[i]? = some (item :: rest)) (hb : (s.seenBy rest).Became w items tasks run call) :
    (s.after i item w).threads[i]? = some (items ++ rest) := by
  have hlt : i < s.threads.length := (List.getElem?_eq_some_iff.1 hi).1
  change (s.threads.set i w.agenda)[i]? = _
  rw [List.getElem?_set_self hlt, hb.agenda]
  rfl

omit [Leaf α] in
theorem mem_threads_after {w : World α σ ι} {tasks : List (Task ι)} {run : RunKey → Option (Run α)}
    {x : Item α ι} {agenda : List (Item α ι)} (hi : s.threads[i]? = some (item :: rest))
    (hb : (s.seenBy rest).Became w items tasks run call) (h : agenda ∈ s.threads) (hx : x ∈ agenda) :
    x = item ∨ ∃ agenda ∈ (s.after i item w).threads, x ∈ agenda := by
  obtain ⟨k, hk⟩ := List.mem_iff_getElem?.1 h
  by_cases hki : k = i
  · subst hki
    obtain rfl := Option.some.inj (hk.symm.trans hi)
    refine (List.mem_cons.1 hx).imp_right fun hx => ?_
    exact ⟨_, List.mem_of_getElem? (threads_after hi hb), List.mem_append_right _ hx⟩
  · refine .inr ⟨agenda, List.mem_of_getElem? (i := k) ?_, hx⟩
    exact (List.getElem?_set_ne (Ne.symm hki)).trans hk

/-- A call that has been made, and that can end in one way only, goes on to end so. -/
theorem Move.keeps_ending (hm : Move b ch s t) (hs : s.Sound) (hc : .launched c ∈ s.log)
    (honly : ∀ o', s.Ending c o' → o' = o) (h : s.Ending c o) : t.Ending c o := by
  rcases hm.spawned with ⟨i, item, rest, w, hi, hw, rfl⟩ | ⟨tasks, agenda, events, hsp, hlog, -, -⟩
  · obtain ⟨items, tasks, run, call, hb, hmove⟩ := World.step_cases rfl hw fun r region hr =>
      hs.known r (hasBegun_of_head (hr ▸ hi))
    have hnow : ∀ {l}, call c = some ⟨.settled o, l⟩ → (s.after i item w).Ending c o :=
      fun hl => .inr (.inl ⟨_, (congrFun hb.call c).trans hl⟩)
    have hnoted : .ended c o ∈ s.world.noted item → (s.after i item w).Ending c o :=
      fun h => .inr (.inr (List.mem_append_right _ h))
    rcases h with ⟨items', hitems', x, hmem, hx⟩ | ⟨l, hl⟩ | hended
    · rcases mem_threads_after hi hb hitems' hmem with rfl | ⟨agenda, hagenda, hmem⟩
      · rcases hmove.settling hx with ⟨l, -, -, hl⟩ | ⟨l, hl⟩ | ⟨hsame, hvoid⟩
        · exact hnow hl
        · exact hnoted (World.ended_mem_noted (.inr ⟨hx, hl⟩))
        · cases hy : s.world.call? c with
          | none =>
            obtain ⟨o', ho'⟩ := hs.exists_ended hc hy
            obtain rfl := honly o' (.inr (.inr ho'))
            exact .inr (.inr (List.mem_append_left _ ho'))
          | some y =>
            obtain ⟨o', ho'⟩ := hvoid y.progress y.loop hy
            have hl : s.world.call? c = some ⟨.settled o', y.loop⟩ := ho' ▸ hy
            obtain rfl := honly o' (.inr (.inl ⟨_, hl⟩))
            exact hnow (hsame ▸ hl)
      · exact .inl ⟨agenda, hagenda, x, hmem, hx⟩
    · rcases hmove.stays_settled hl with ⟨l', hl'⟩ | rfl | rfl
      · exact hnow hl'
      · exact hnoted (World.ended_mem_noted (.inl ⟨rfl, hl⟩))
      · exact absurd hc (hs.not_launched_of_call hi)
    · exact .inr (.inr (List.mem_append_left _ hended))
  · rcases h with ⟨items, hitems, hx⟩ | ⟨l, hl⟩ | hended
    · exact .inl ⟨items, hsp.threads ▸ List.mem_append_left _ hitems, hx⟩
    · exact .inr (.inl ⟨l, hsp.call ▸ hl⟩)
    · exact .inr (.inr (hlog ▸ List.mem_append_left _ hended))

theorem Ending.ended (h : s.Ending c o) (hs : s.Sound) (hrest : ∀ items ∈ s.threads, items = []) :
    .ended c o ∈ s.log := by
  rcases h with ⟨items, hitems, x, hmem, -⟩ | ⟨l, hl⟩ | hended
  · rw [hrest items hitems] at hmem
    cases hmem
  · cases hs.awaited_of_call hrest hl
  · exact hended

end Crew

/-! ### Where failures come from -/

def Stage.outcome? : Stage → Option Outcome
  | closing o | settling o => some o
  | quiet | turn | inside _ | started _ => none

variable {e : Error}

def Backend.Unread (b : Backend α σ ι) (c : CallKey) (e : Error) : Prop :=
  ∃ slice d, b.read c.run.host slice d = .error e

theorem World.Advances.outcome {d : σ} {op : Option (Operation α)} {l l' : LoopState}
    {items : List (Item α ι)} (h : World.Advances b d c op l o items l')
    (he : (Stage.next items).outcome? = some (.error e)) : o = .error e ∨ b.Unread c e := by
  cases h with
  | failed => exact .inl (Option.some.inj he)
  | unread hin hop hread =>
    obtain rfl := Except.error.inj (Option.some.inj he)
    exact .inr ⟨_, _, hread⟩
  | next | again | finished | stuck => cases he

/-- A call is about to fail as it was before, as a nested run has just failed, or as nothing could be
read. -/
theorem StageMove.outcome {w : World α σ ι} {item : Item α ι} {x x' : Stage}
    (h : StageMove b w c item x x') (he : x'.outcome? = some (.error e)) :
    x.outcome? = some (.error e) ∨ (∃ n, item = .settleRun (c.nested n) (.error e)) ∨
      b.Unread c e := by
  cases h with
  | same => exact .inl he
  | unread hop hread =>
    obtain rfl := Except.error.inj (Option.some.inj he)
    exact .inr (.inr ⟨_, _, hread⟩)
  | turned hop hc h hx =>
    rcases hx with ⟨rfl, -⟩ | ⟨rfl, -⟩ <;> cases he
  | advances hc h =>
    exact (h.outcome he).imp (fun ho => congrArg some ho) .inr
  | noted => exact .inr (.inl ⟨_, by rw [Option.some.inj he]⟩)
  | goesOn hc h =>
    exact .inr ((h.outcome he).imp (fun ho => ⟨_, by rw [ho]⟩) id)
  | passed hc => exact .inr (.inl ⟨_, by rw [Option.some.inj he]⟩)
  | body | branch | loop | lost | waits | settled => cases he

namespace Crew

variable [Leaf α] {s t : Crew α σ ι} {ch : Choice σ ι} {x : Stage}

def Inherited (b : Backend α σ ι) (s : Crew α σ ι) (c : CallKey) (e : Error) : Prop :=
  (∃ n, .resolved (c.nested n) (.error e) ∈ s.log) ∨ b.Unread c e

/-- A call fails only as a nested run of it has, or as nothing could be read. -/
structure Inherits (b : Backend α σ ι) (s : Crew α σ ι) (c : CallKey) (x : Stage) : Prop where
  stage : ∀ e, x.outcome? = some (.error e) → s.Inherited b c e
  settled : ∀ e, s.SettledWith c (.error e) → s.Inherited b c e

omit [Leaf α] in
theorem Inherited.mono (h : s.Inherited b c e) (hlog : s.log ⊆ t.log) : t.Inherited b c e :=
  h.imp_left fun ⟨n, hn⟩ => ⟨n, hlog hn⟩

theorem Shows.outcome_of_settles (hs : s.Sound) (hf : s.Faithful) (hx : s.Shows c x)
    (hleaf : ¬ s.IsLeaf c) (hc : s.world.call? c ≠ none) {items : List (Item α ι)}
    (hitems : items ∈ s.threads) {item : Item α ι} (hmem : item ∈ items) (h : item.Settles c o) :
    x.outcome? = some o := by
  rcases h with rfl | rfl
  · have hpos : 0 < s.tokens.count (c, .settle o) := by
      rw [List.count_pos_iff, tokens, List.mem_flatMap]
      exact ⟨_, hitems, List.mem_filterMap.2 ⟨_, hmem, rfl⟩⟩
    rw [hx.settle hleaf] at hpos
    exact Stage.eq_settling hpos ▸ rfl
  · obtain ⟨y, hy⟩ := Option.ne_none_iff_exists'.1 hc
    obtain ⟨-, op, hop⟩ := hs.operation_of_call hy
    exact absurd ((hs.isLeaf_iff hop).2 (hf _ hitems c o hmem op hop)) hleaf

theorem Inherits.move (h : s.Inherits b c x) (hx : s.Shows c x) (hs : s.Sound) (hf : s.Faithful)
    (hleaf : ¬ s.IsLeaf c) (hm : Move b ch s t) : ∃ x', t.Shows c x' ∧ t.Inherits b c x' := by
  obtain ⟨events, hgrows, -⟩ := hm.log
  have hlog : s.log ⊆ t.log := hgrows ▸ List.subset_append_left _ _
  have hsettled : ∀ e, t.SettledWith c (.error e) → t.Inherited b c e := fun e he => by
    refine Inherited.mono ?_ hlog
    rcases hm.settledWith hs he with ⟨⟨items, hitems, item, hmem, hitem⟩, hc⟩ | he
    · exact h.stage e (hx.outcome_of_settles hs hf hleaf hc hitems hmem hitem)
    · exact h.settled e he
  rcases hm.spawned with ⟨i, item, rest, w, hi, hw, rfl⟩ | ⟨tasks, agenda, events, hsp, hlog', ha, he⟩
  · obtain ⟨items, tasks, run, call, hb, hc⟩ := World.step_cases rfl hw fun r region hr =>
      hs.known r (hasBegun_of_head (hr ▸ hi))
    obtain ⟨x', hx', hmove⟩ := hx.move hs hf hi hb hc
    refine ⟨x', hx', fun e he => ?_, hsettled⟩
    rcases hmove.outcome he with he | ⟨n, rfl⟩ | hread
    · exact (h.stage e he).mono hlog
    · exact .inl ⟨n, mem_log_after.2 (.inr rfl)⟩
    · exact .inr hread
  · exact ⟨x, hx.spawned hsp hlog' ha he, fun e he => (h.stage e he).mono hlog, hsettled⟩

theorem ReachableWhile.inherits (h : ReachableWhile Faithful b s) (hleaf : ¬ s.IsLeaf c) :
    ∃ x, s.Shows c x ∧ s.Inherits b c x := by
  induction h with
  | @fresh w hw =>
    obtain ⟨x, hx⟩ := (ReachableWhile.fresh hw : ReachableWhile Faithful b _).shows c
    have hnone : ({ world := w } : Crew α σ ι).world.call? c = none := by
      simp [World.call?, hw.execution?_eq_none]
    have hquiet := hx.fits
    rw [hnone] at hquiet
    obtain rfl := hquiet.eq_quiet
    refine ⟨.quiet, hx, fun e he => ?_, fun e he => ?_⟩
    · cases he
    · rcases he with ⟨l, hl⟩ | he
      · cases hnone.symm.trans hl
      · cases he
  | @move s t ch hr hf hm ih =>
    have hleaf' : ¬ s.IsLeaf c := by
      rintro ⟨info, a, region, hmem, hop⟩
      obtain ⟨_, _, _, hbegun⟩ := hm.log
      exact hleaf ⟨info, a, region, hbegun.subset hmem, hop⟩
    obtain ⟨x, hx, hinherits⟩ := ih hleaf'
    exact hinherits.move hx hr.reachable.sound hf hleaf' hm

theorem ReachableWhile.inherited (h : ReachableWhile Faithful b s) (hleaf : ¬ s.IsLeaf c)
    (hc : .ended c (.error e) ∈ s.log) : s.Inherited b c e :=
  let ⟨_, _, hinherits⟩ := h.inherits hleaf
  hinherits.settled e (.inr hc)

/-- Errors of some sort come neither of reading nor of runs that are given up, and attribution makes none.
An operation that fails with one is a leaf, or has a leaf inside it that has failed with one. -/
theorem ReachableWhile.exists_leaf_of_ended (h : ReachableWhile Faithful b s) {P : Error → Prop}
    (hattributed : ∀ {e info}, P (e.attributedTo info) → P e) (hdropped : ¬ P .promiseDropped)
    (hread : ∀ {c e}, b.Unread c e → ¬ P e) {op : Operation α} (hop : s.Belongs c op)
    (hc : .ended c (.error e) ∈ s.log) (he : P e) : ∃ d info a e', d.run.host = c.run.host ∧
      s.Belongs d (.leaf info a) ∧ op.Contains (.leaf info a) ∧ .ended d (.error e') ∈ s.log ∧ P e' := by
  have hs := h.reachable.sound
  induction hsize : sizeOf op using Nat.strong_induction_on generalizing op c e with
  | _ size ih =>
    by_cases hleaf : s.IsLeaf c
    · obtain ⟨info, a, hop'⟩ := hleaf
      obtain rfl := hop.unique hs hop'
      exact ⟨c, info, a, e, rfl, hop, .inl rfl, hc, he⟩
    rcases h.inherited hleaf hc with ⟨n, hn⟩ | hunread
    case inr => exact absurd he (hread hunread)
    rcases h.reachable.exists_failed hn with rfl | ⟨region, i, e', op', hr, hop', hc', rfl⟩
    · exact absurd he hdropped
    obtain ⟨outer, houter, hregion⟩ := h.reachable.mem_nested (.inl hr)
    obtain rfl := houter.unique hs hop
    have hmem : op' ∈ region.ops := List.mem_of_getElem? hop'
    have hlt := (sizeOf_lt_of_mem_ops hmem).trans (sizeOf_nested_lt hregion)
    obtain ⟨d, info, a, e₀, hhost, hd, hcontains, hended, he₀⟩ :=
      ih _ (hsize ▸ hlt) (c := ⟨c.nested n, i⟩) ⟨region, hr, hop'⟩ hc' (hattributed he) rfl
    exact ⟨d, info, a, e₀, hhost, hd, .nested hregion hmem hcontains, hended, he₀⟩

end Crew

end OpFlow.Machine
