import OpFlow.Proofs.Machine.Endings
import OpFlow.Proofs.Order.Stages

/-!
How the calls of leaf operations stand in program order. Until such a call has come to its outcome,
what is left of it makes of the arena what all of it makes of the one that it has found. Then it is
asked for to be settled, with the outcome that it has come to.
-/
namespace OpFlow

open Machine

variable {α : Type} [Leaf α] {m : Meaning α} {a A A' : Arena} {op : Operation α} {p : Process}
  {o : Outcome}

/-- What is left of an operation that has found the arena `a` makes of `A` what all of it makes
of `a`. -/
structure Meaning.Left (m : Meaning α) (op : Operation α) (a : Arena) (p : Process) (A : Arena) :
    Prop where
  confined : p.Confined op.footprint
  outcome : (p.run A).2 = (m.operation op a).2
  arena : (p.run A).1.AgreeOn op.footprint (m.operation op a).1

namespace Meaning.Left

theorem frame (h : m.Left op a p A) (hA : A'.AgreeOn op.footprint A) : m.Left op a p A' where
  confined := h.confined
  outcome := (h.confined.confines_run.result A' A hA).trans h.outcome
  arena := (h.confined.confines_run.agreeOn hA).trans h.arena

theorem step (h : m.Left op a p A) : m.Left op a (p.step A).2 (p.step A).1 where
  confined := h.confined.step A
  outcome := by rw [p.run_step, h.outcome]
  arena := by rw [p.run_step]; exact h.arena

theorem done (h : m.Left op a (.ended o) A) : m.Done op a o A := ⟨h.outcome.symm, fun _ => h.arena⟩

end Meaning.Left

theorem Conduct.left (P : Conduct α) {info : OpInfo} {act : α}
    (hA : A.AgreeOn (Operation.leaf info act).footprint a) :
    P.meaning.Left (.leaf info act) a (P.process act) A := by
  have hall : P.meaning.operation (.leaf info act) = (P.process act).run := by
    rw [Meaning.operation]
    rfl
  have hconfined : (P.process act).Confined (Operation.leaf info act).footprint := by
    rw [Operation.footprint]
    exact P.confined act
  refine Meaning.Left.frame ⟨hconfined, by rw [hall], ?_⟩ hA
  rw [hall]
  exact ⟨rfl, fun _ _ => rfl⟩

namespace Bench

variable {c c' : CallKey} {d : Bench}

theorem go_cases (c : CallKey) (p : Process) (d : Bench) : (d.go c p).1.arena = (p.step d.arena).1 ∧
    ((∃ o, (p.step d.arena).2 = .ended o ∧ (d.go c p).2 = [.settle c o] ∧
      (d.go c p).1.waiting = Function.update d.waiting c none) ∨
    (d.go c p).2 = [] ∧
      (d.go c p).1.waiting = Function.update d.waiting c (some (p.step d.arena).2)) := by
  rw [go]
  rcases hp : p.step d.arena with ⟨arena, o | ⟨change, next⟩⟩
  · exact ⟨rfl, .inl ⟨o, rfl, rfl, rfl⟩⟩
  · exact ⟨rfl, .inr ⟨rfl, rfl⟩⟩

theorem arena_go : (d.go c p).1.arena = (p.step d.arena).1 := (go_cases c p d).1

theorem waiting_go (hc : c' ≠ c) : (d.go c p).1.waiting c' = d.waiting c' := by
  rcases (go_cases c p d).2 with ⟨o, -, -, h⟩ | ⟨-, h⟩ <;> rw [h, Function.update_of_ne hc]

theorem mem_go {e : Effect Empty} (he : e ∈ (d.go c p).2) : ∃ o, e = .settle c o := by
  rcases (go_cases c p d).2 with ⟨o, -, h, -⟩ | ⟨h, -⟩ <;> rw [h] at he
  · exact ⟨o, List.mem_singleton.1 he⟩
  · cases he

end Bench

namespace Machine

/-- What is asked for at the launch of an operation is that its call is settled. -/
theorem World.mem_effectsAfter {P : Conduct α} {w : World α Bench Empty} {item : Item α Empty}
    {e : Effect Empty} (he : e ∈ World.effectsAfter P.backend w item) : ∃ c info act,
      item = .call c ∧ w.operation? c = some (.leaf info act) ∧
        e ∈ (w.device.go c (P.process act)).2 := by
  cases item with
  | call c =>
    cases hop : w.operation? c with
    | none => simp [effectsAfter, hop] at he
    | some op =>
      cases op with
      | leaf info act =>
        refine ⟨c, info, act, rfl, hop, ?_⟩
        simpa [effectsAfter, hop, Conduct.backend, Except.toOption] using he
      | call | conditional | loop => simp [effectsAfter, hop] at he
  | effect e' =>
    cases e' with
    | settle => cases he
    | work x | submit k x => exact x.elim
  | _ => cases he

omit [Leaf α] in
/-- A call that the backend settles is settled then, or it is over. -/
theorem CallMove.of_effect {b : Backend α Bench Empty} {w : World α Bench Empty}
    {items : List (Item α Empty)} {call : CallKey → Option Call} {c : CallKey} {y' : Call}
    (h : CallMove b w (.effect (.settle c o)) items call) (hy' : call c = some y') :
    ∃ o', y'.progress = .settled o' := by
  have hkey : ∀ {c' : CallKey} {o'}, (Item.effect (.settle c o) : Item α Empty).Settles c' o' →
      c' = c := fun hitem => by
    rcases hitem with hitem | hitem <;> cases hitem
    rfl
  cases h with
  | spares hitem => cases hitem
  | ended hitem =>
    rcases hitem with ⟨hitem, -⟩ | ⟨hitem, -⟩
    · cases hitem
    · rw [hkey hitem, Function.update_self] at hy'
      cases hy'
  | settled hitem hc =>
    rw [hkey hitem, Function.update_self] at hy'
    obtain rfl := Option.some.inj hy'
    exact ⟨_, rfl⟩
  | void hitem hc =>
    obtain ⟨p, l⟩ := y'
    exact hc p l (hkey hitem ▸ hy')

namespace Crew

def Asked (s : Crew α Bench Empty) (c : CallKey) (o : Outcome) : Prop :=
  ∃ items ∈ s.threads, .effect (.settle c o) ∈ items

/-- How a call in flight of a leaf operation stands that has found the arena `a`. -/
structure Awaits (m : Meaning α) (s : Crew α Bench Empty) (d : Bench) (c : CallKey)
    (op : Operation α) (a : Arena) (y : Call) : Prop where
  waiting : ∀ p, d.waiting c = some p → m.Left op a p d.arena ∧ (∀ o, y.progress ≠ .settled o) ∧
    ∀ o, ¬ s.Asked c o
  asked : ∀ o, s.Asked c o → m.Done op a o d.arena
  settled : ∀ o, y.progress = .settled o → m.Done op a o d.arena
  alive : (∀ o, y.progress ≠ .settled o) → d.waiting c ≠ none ∨ ∃ o, s.Asked c o

variable {s t : Crew α Bench Empty} {d d' : Bench} {c : CallKey} {y y' : Call} {i : Nat}
  {item : Item α Empty} {rest items : List (Item α Empty)} {tasks : List (Task Empty)}
  {w : World α Bench Empty} {run : RunKey → Option (Run α)} {call : CallKey → Option Call}
  {P : Conduct α}

omit [Leaf α] in
theorem asked_of_head {c : CallKey} (hi : s.threads[i]? = some (.effect (.settle c o) :: rest)) :
    s.Asked c o := ⟨_, mem_threads hi, List.mem_cons_self⟩

theorem Awaits.frame (h : s.Awaits m d c op a y) (hA : d'.arena.AgreeOn op.footprint d.arena)
    (hwaiting : d'.waiting c = d.waiting c) : s.Awaits m d' c op a y where
  waiting p hp := (h.waiting p (hwaiting ▸ hp)).imp_left fun hleft => hleft.frame hA
  asked o ho := (h.asked o ho).frame hA
  settled o ho := (h.settled o ho).frame hA
  alive ho := by
    rw [hwaiting]
    exact h.alive ho

theorem Awaits.congr (h : s.Awaits m d c op a y) (ht : ∀ o, t.Asked c o ↔ s.Asked c o) :
    t.Awaits m d c op a y where
  waiting p hp := (h.waiting p hp).imp_right (And.imp_right fun hnone o ho => hnone o ((ht o).1 ho))
  asked o ho := h.asked o ((ht o).1 ho)
  settled := h.settled
  alive ho := (h.alive ho).imp_right fun ⟨o, ho⟩ => ⟨o, (ht o).2 ho⟩

/-- A call that goes on waits then, or is to be settled with what it has come to. -/
theorem Awaits.of_go (hleft : m.Left op a p d.arena) (hy : ∀ o, y.progress ≠ .settled o)
    (hasked : ∀ o, s.Asked c o ↔ .settle c o ∈ (d.go c p).2) :
    s.Awaits m (d.go c p).1 c op a y := by
  have hstep := hleft.step
  obtain ⟨harena, ⟨o', hp, heffects, hwaiting⟩ | ⟨heffects, hwaiting⟩⟩ := Bench.go_cases c p d
  · rw [heffects] at hasked
    have hwaiting' : (d.go c p).1.waiting c = none := by rw [hwaiting, Function.update_self]
    refine ⟨fun q hq => ?_, fun o ho => ?_, fun o ho => absurd ho (hy o), fun _ => .inr ⟨o', ?_⟩⟩
    · cases hwaiting'.symm.trans hq
    · obtain rfl := (Effect.settle.inj (List.mem_singleton.1 ((hasked o).1 ho))).2
      rw [hp] at hstep
      exact harena ▸ hstep.done
    · exact (hasked o').2 (List.mem_singleton_self _)
  · rw [heffects] at hasked
    have hwaiting' : (d.go c p).1.waiting c = some (p.step d.arena).2 := by
      rw [hwaiting, Function.update_self]
    have hnone : ∀ o, ¬ s.Asked c o := fun o ho => absurd ((hasked o).1 ho) List.not_mem_nil
    refine ⟨fun q hq => ?_, fun o ho => absurd ho (hnone o), fun o ho => absurd ho (hy o),
      fun _ => .inl (by simp [hwaiting'])⟩
    obtain rfl := Option.some.inj (hwaiting'.symm.trans hq)
    exact ⟨harena ▸ hstep, hy, hnone⟩

theorem Asked.of_after (hi : s.threads[i]? = some (item :: rest))
    (hw : (s.seenBy (item :: rest)).step? P.backend = some w) (h : (s.after i item w).Asked c o) :
    s.Asked c o ∨ ∃ info act, item = .call c ∧ s.world.operation? c = some (.leaf info act) ∧
      .settle c o ∈ (s.world.device.go c (P.process act)).2 := by
  obtain ⟨agenda, hagenda, hmem⟩ := h
  rcases List.mem_or_eq_of_mem_set hagenda with hold | rfl
  · exact .inl ⟨_, hold, hmem⟩
  · rcases World.mem_agenda_step? rfl hw hmem with hmem | hmem | ⟨-, x, -⟩
    · exact .inl ⟨_, mem_threads hi, List.mem_cons_of_mem _ hmem⟩
    · obtain ⟨c', info, act, rfl, hop, hgo⟩ := World.mem_effectsAfter hmem
      obtain ⟨o', ho'⟩ := Bench.mem_go hgo
      obtain ⟨rfl, rfl⟩ := Effect.settle.inj ho'
      exact .inr ⟨info, act, rfl, hop, hgo⟩
    · exact x.elim

omit [Leaf α] in
theorem Asked.after (hi : s.threads[i]? = some (item :: rest))
    (hb : (s.seenBy rest).Became w items tasks run call) (h : s.Asked c o)
    (hitem : item ≠ .effect (.settle c o)) : (s.after i item w).Asked c o := by
  obtain ⟨agenda, hagenda, hmem⟩ := h
  obtain ⟨k, hk, rfl⟩ := List.getElem_of_mem hagenda
  by_cases hki : k = i
  · subst hki
    obtain hthread : s.threads[k] = item :: rest :=
      Option.some.inj ((List.getElem?_eq_getElem hk).symm.trans hi)
    rw [hthread] at hmem
    refine ⟨w.agenda, List.mem_set hk _, ?_⟩
    rw [hb.agenda]
    exact List.mem_append_right _ ((List.mem_cons.1 hmem).resolve_left hitem.symm)
  · exact ⟨s.threads[k], List.mem_of_getElem? (i := k) (by simp [Crew.after, Ne.symm hki, hk]), hmem⟩

/-- An item that does not launch it lets a call of a leaf operation stand as it does. -/
theorem Awaits.after (hs : s.Sound) (ht : (s.after i item w).Sound) (h : s.Awaits m d c op a y)
    (hi : s.threads[i]? = some (item :: rest))
    (hw : (s.seenBy (item :: rest)).step? P.backend = some w)
    (hb : (s.seenBy rest).Became w items tasks run call)
    (hm : CallMove P.backend (s.seenBy rest) item items call) (hy : s.world.call? c = some y)
    (hy' : call c = some y') (hitem : ∀ o, item ≠ .settle c o) :
    (s.after i item w).Awaits m d c op a y' := by
  have hcall : (s.after i item w).world.call? c = some y' := (congrFun hb.call c).trans hy'
  have hasked : ∀ o, (s.after i item w).Asked c o → s.Asked c o := fun o ho => by
    refine (ho.of_after hi hw).resolve_right ?_
    rintro ⟨info, act, rfl, -⟩
    cases (hs.call?_of_call hi).1.symm.trans hy
  have hstays : ∀ o, y.progress = .settled o → y'.progress = .settled o := fun o ho => by
    have hold : s.SettledWith c o := by
      obtain ⟨p, l⟩ := y
      exact .inl ⟨l, by rw [hy, ← ho]⟩
    rcases hold.after hs hi hb hm with ⟨l, hl⟩ | hended
    · cases hcall.symm.trans hl
      rfl
    · cases hcall.symm.trans (ht.call?_of_ended hended)
  have hsettles : ∀ o, y'.progress = .settled o →
      y.progress = .settled o ∨ item = .effect (.settle c o) := fun o ho => by
    rcases hm.settles hy' ho with ⟨z, hz, hsettled⟩ | ⟨hsettles, -⟩
    · obtain rfl := Option.some.inj (hy.symm.trans hz)
      exact .inl hsettled
    · exact .inr (hsettles.resolve_left (hitem o))
  refine ⟨fun p hp => ?_, fun o ho => h.asked o (hasked o ho), fun o ho => ?_, fun hno => ?_⟩
  · obtain ⟨hleft, hunsettled, hnone⟩ := h.waiting p hp
    refine ⟨hleft, fun o ho => ?_, fun o ho => hnone o (hasked o ho)⟩
    rcases hsettles o ho with ho | rfl
    · exact hunsettled o ho
    · exact hnone o (asked_of_head hi)
  · rcases hsettles o ho with ho | rfl
    · exact h.settled o ho
    · exact h.asked o (asked_of_head hi)
  · refine (h.alive fun o ho => hno o (hstays o ho)).imp_right fun ⟨o, ho⟩ => ⟨o, ho.after hi hb ?_⟩
    rintro rfl
    obtain ⟨o', ho'⟩ := hm.of_effect hy'
    exact hno o' ho'

end Crew

end Machine

end OpFlow
