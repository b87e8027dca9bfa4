import OpFlow.Proofs.Order.Standing

/-!
How the standing of a call that runs nested regions moves on with what threads do: as the operation
is called, from turn to turn of a loop, and as nested runs end. What is needed of a nested run is that
it has come to what its region does.
-/
namespace OpFlow

open Machine

variable {α : Type} [Leaf α] {m : Meaning α} {P : Conduct α} {a A : Arena} {op : Operation α}
  {x : Stage} {y : Call} {p : Progress} {l l' : LoopState} {o : Outcome} {c : CallKey} {d : Bench}
  {info : OpInfo} {predicate : Slice} {condition body : Program α} {trips : Option Nat}

namespace Operation

theorem mem_places_of_steering {s : Slice} (h : op.steering? = some s) :
    .slot s.index ∈ op.footprint.places := by
  cases op with
  | leaf | call => cases h
  | conditional | loop =>
    cases h
    simp [footprint, Footprint.mem_places, Footprint.touches, BufferUse.read]

/-- Whatever the index of an operation holds, it chooses one of the branches that there are. -/
def Chooses : Operation α → Prop
  | .conditional _ _ type branches => ∀ bytes, type.choose branches.length bytes < branches.length
  | _ => True

omit [Leaf α] in
/-- An operation that has not been refused chooses a branch. -/
theorem chooses_of_conditional? {index : Slice} {type : ElementType} {branches : List (Program α)}
    (h : conditional? info index type branches = .ok op) : op.Chooses := by
  unfold conditional? at h
  simp only [bind, Except.bind, pure, Except.pure, throw, throwThe, MonadExceptOf.throw] at h
  repeat' split at h
  all_goals cases h
  case isFalse.isFalse.isFalse.refl htwo _ _ =>
    intro bytes
    simp only [ne_eq, Decidable.not_not] at htwo
    simp only [IndexType.choose]
    split <;> omega
  case isFalse.isFalse.refl hsome _ =>
    intro bytes
    have hpos : 0 < branches.length := by
      simpa [List.length_pos_iff, List.isEmpty_iff] using hsome
    simp only [IndexType.choose]
    split <;> omega

end Operation

/-- A nested run has come to what its region does: to the outcome, and if that is good, also in the
slots that the operation around it declares. -/
structure Meaning.Ran (m : Meaning α) (f : Footprint) (z : Site α) (o : Outcome) (A : Arena) :
    Prop where
  outcome : (m.region z.region z.arena).2 = o
  arena : o = .ok () → A.AgreeOn f (m.region z.region z.arena).1

namespace Meaning

/-- A loop goes on after a nested run. -/
theorem Stands.advance {a' : Arena} {items : List (Item α Empty)}
    (hafter : Turning.after predicate trips (m.region condition) (m.region body) l.started a =
      (a', .resume predicate l a' o))
    (harena : o = .ok () →
      d.arena.AgreeOn (Operation.loop info predicate condition body trips).footprint a')
    (hadv : World.Advances P.backend d c (some (.loop info predicate condition body trips)) l o
      items l') :
    m.Stands a d.arena (.loop info predicate condition body trips) (.next items) ⟨p, some l'⟩ := by
  have hread : o = .ok () → d.arena.read predicate = a'.read predicate := fun ho =>
    (harena ho).read (Operation.mem_places_of_steering rfl)
  cases hadv with
  | @failed e =>
    have hover : Turning.resume predicate l a' (.error e) = .finished (.error e) := by
      unfold Turning.resume
      split <;> rfl
    rw [hover] at hafter
    exact .settling (.of_finished hafter fun ho => by cases ho)
  | next hin =>
    refine .turn (hafter.trans ?_) (harena rfl)
    rw [Turning.resume, if_pos hin, Turning.afterBody]
  | unread hin hop hbytes =>
    cases hop
    have hbytes : a'.read predicate = _ := (hread rfl).symm.trans hbytes
    rw [Turning.resume, if_neg (by simp [hin]), Turning.afterCondition, hbytes] at hafter
    exact .settling (.of_finished hafter fun ho => by cases ho)
  | again hin hop hbytes htrue =>
    cases hop
    refine .turn (hafter.trans ?_) (harena rfl)
    have hbytes : a'.read predicate = _ := (hread rfl).symm.trans hbytes
    simp only [Turning.resume, hin, Bool.false_eq_true, if_false, Turning.afterCondition, hbytes,
      htrue, if_true]
  | finished hin hop hbytes hfalse =>
    cases hop
    refine .settling (.of_finished (hafter.trans ?_) harena)
    have hbytes : a'.read predicate = _ := (hread rfl).symm.trans hbytes
    simp only [Turning.resume, hin, Bool.false_eq_true, if_false, Turning.afterCondition, hbytes,
      hfalse]
  | stuck hin hop => exact absurd rfl (hop _ _ _ _ _)

/-- A loop takes its next turn. -/
theorem Stands.turned {items : List (Item α Empty)}
    (h : m.Stands a A (.loop info predicate condition body trips) .turn ⟨p, some l⟩)
    (hturns : World.Turns c condition body trips l items l')
    (hx : x = .settling (.ok ()) ∧ items = [.settle c (.ok ())] ∨
      x = .started l.started ∧ l'.started = l.started + 1) :
    m.Stands a A (.loop info predicate condition body trips) x ⟨p, some l'⟩ := by
  cases h with
  | turning hx => cases hx
  | @turn _ _ _ _ _ a' _ _ hgoing harena =>
    cases hturns with
    | finished hin hall =>
      rcases hx with ⟨rfl, -⟩ | ⟨-, hl⟩
      · have hover : Turning.after predicate trips (m.region condition) (m.region body)
            (l.started + 1) a = (a', .finished (.ok ())) := by
          rw [Turning.after, hgoing, Turning.next, if_pos (by simp [hin, hall])]
        exact .settling (.of_finished hover fun _ => harena)
      · omega
    | body hin hmore =>
      rcases hx with ⟨-, hitems⟩ | ⟨rfl, -⟩
      · cases hitems
      · exact .turning rfl rfl hgoing hin.symm (by cases hbody : l.inBody <;> simp_all)
    | condition hin htrips =>
      rcases hx with ⟨-, hitems⟩ | ⟨rfl, -⟩
      · cases hitems
      · exact .turning rfl rfl hgoing (by simp [hin, htrips]) (by simp [htrips])

theorem Stands.closing_of_ran {n : Nat} (h : m.Stands a A op x ⟨p, some l⟩) (hx : x.nested? = some n)
    (hran : ∀ z, m.Nests op a n z → m.Ran op.footprint z o A) :
    ∃ info predicate condition body trips a', op = .loop info predicate condition body trips ∧
      Turning.after predicate trips (m.region condition) (m.region body) l.started a =
        (a', .resume predicate l a' o) ∧ (o = .ok () → A.AgreeOn op.footprint a') := by
  cases h with
  | turn | closing | settling | settled => cases hx
  | turning hx' hn hgoing hin hmore =>
    obtain rfl := Option.some.inj (hx'.symm.trans hx)
    have hran := hran _ (.turn hgoing)
    have hafter := after_succ hn hgoing hin hmore rfl
    rw [hran.outcome] at hafter
    exact ⟨_, _, _, _, _, _, rfl, hafter, hran.arena⟩

theorem Stands.noted {n : Nat} (h : m.Stands a A op (.started n) ⟨p, some l⟩)
    (hran : ∀ z, m.Nests op a n z → m.Ran op.footprint z o A) :
    m.Stands a A op (.closing o) ⟨p, some { l with progress := .settled o }⟩ := by
  obtain ⟨info, predicate, condition, body, trips, a', rfl, hafter, harena⟩ :=
    h.closing_of_ran rfl hran
  exact .closing hafter harena

theorem Stands.waits {n : Nat} (h : m.Stands a A op (.started n) ⟨p, some l⟩) :
    m.Stands a A op (.inside n) ⟨p, some { l with progress := .awaited }⟩ := by
  cases h with
  | turning hnested hn hgoing hin hmore => exact .turning hnested hn hgoing hin hmore

theorem Stands.advances {items : List (Item α Empty)}
    (h : m.Stands a d.arena op (.closing o) ⟨p, some l⟩)
    (hadv : World.Advances P.backend d c (some op) l o items l') :
    m.Stands a d.arena op (.next items) ⟨p, some l'⟩ := by
  cases h with
  | turning hx => cases hx
  | closing hafter harena => exact .advance hafter harena hadv

theorem Stands.goesOn {n : Nat} {items : List (Item α Empty)}
    (h : m.Stands a d.arena op (.inside n) ⟨p, some l⟩)
    (hran : ∀ z, m.Nests op a n z → m.Ran op.footprint z o d.arena)
    (hadv : World.Advances P.backend d c (some op) l o items l') :
    m.Stands a d.arena op (.next items) ⟨p, some l'⟩ := by
  obtain ⟨info, predicate, condition, body, trips, a', rfl, hafter, harena⟩ :=
    h.closing_of_ran rfl hran
  exact .advance hafter harena hadv

theorem Stands.passed {n : Nat} (h : m.Stands a A op (.inside n) ⟨p, none⟩)
    (hran : ∀ z, m.Nests op a n z → m.Ran op.footprint z o A) :
    m.Stands a A op (.settling o) y := by
  cases h with
  | inside hz hop =>
    have hr := hran _ hz
    exact .settling ⟨hop ▸ hr.outcome, fun ho => hop ▸ hr.arena ho⟩

theorem Done.stands (h : m.Done op a o A) (hy : y.progress = .settled o) :
    m.Stands a A op .quiet y := by
  obtain ⟨p, l⟩ := y
  obtain rfl : p = _ := hy
  exact .settled h

end Meaning

namespace Machine

/-! ### What becomes of a call -/

section

variable {β σ ι : Type} {b : Backend β σ ι} {v : World β σ ι} {items : List (Item β ι)}
  {call : CallKey → Option Call} {n : Nat}

theorem CallMove.eq_of_entered (hm : CallMove b v (.iterated c) items call)
    (hc : v.call? c = some ⟨p, some l⟩) (hl : l.progress = .entered) (hy : call c = some y) :
    y = ⟨p, some { l with progress := .awaited }⟩ := by
  rcases hm.of_iterated hc with ⟨o, l', hset, -⟩ | ⟨-, -, rfl⟩
  · cases hl.symm.trans hset
  · rw [Function.update_self] at hy
    exact (Option.some.inj hy).symm

theorem CallMove.eq_of_closing (hm : CallMove b v (.iterated c) items call)
    (hc : v.call? c = some ⟨p, some l⟩) (hl : l.progress = .settled o) (hy : call c = some y)
    {items' : List (Item β ι)}
    (hadv : World.Advances b v.device c (v.operation? c) l o items' l') : y = ⟨p, some l'⟩ := by
  rcases hm.of_iterated hc with ⟨o', l'', hset, hadv', rfl⟩ | ⟨hset, -⟩
  · cases hl.symm.trans hset
    obtain ⟨-, rfl⟩ := hadv'.unique hadv
    rw [Function.update_self] at hy
    exact (Option.some.inj hy).symm
  · exact absurd hl (hset _)

theorem CallMove.eq_of_noted (hm : CallMove b v (.settleRun (c.nested n) o) items call)
    (hc : v.call? c = some ⟨p, some l⟩) (hl : l.progress = .entered) (hy : call c = some y) :
    y = ⟨p, some { l with progress := .settled o }⟩ := by
  rcases hm.of_settleRun hc with ⟨-, -, rfl⟩ | ⟨hl', -⟩ | ⟨o', hl'⟩
  · rw [Function.update_self] at hy
    exact (Option.some.inj hy).symm
  · cases hl.symm.trans hl'
  · cases hl.symm.trans hl'

theorem CallMove.eq_of_awaited (hm : CallMove b v (.settleRun (c.nested n) o) items call)
    (hc : v.call? c = some ⟨p, some l⟩) (hl : l.progress = .awaited) (hy : call c = some y)
    {items' : List (Item β ι)}
    (hadv : World.Advances b v.device c (v.operation? c) l o items' l') : y = ⟨p, some l'⟩ := by
  rcases hm.of_settleRun hc with ⟨hl', -⟩ | ⟨-, l'', hadv', rfl⟩ | ⟨o', hl'⟩
  · cases hl.symm.trans hl'
  · obtain ⟨-, rfl⟩ := hadv'.unique hadv
    rw [Function.update_self] at hy
    exact (Option.some.inj hy).symm
  · cases hl.symm.trans hl'

theorem World.Opens.brings {op : Operation β} {d : σ} {l : Option LoopState}
    (h : World.Opens b d c op items l) (hleaf : ∀ info act, op ≠ .leaf info act)
    (hchooses : op.Chooses) :
    (∃ k, (c, k) ∈ items.filterMap Item.token) ∨ ∃ n region, .start (c.nested n) region ∈ items := by
  cases h with
  | leaf | panicked => exact absurd rfl (hleaf _ _)
  | body | branch => exact .inr ⟨0, _, List.mem_singleton_self _⟩
  | unread => exact .inl ⟨_, List.mem_singleton_self _⟩
  | loop => exact .inl ⟨.iterate, List.mem_singleton_self _⟩
  | @nothing _ _ _ _ bytes _ hbranch =>
    have hlt := hchooses bytes
    have hle := List.getElem?_eq_none_iff.1 hbranch
    omega

theorem World.Opens.eq_none {op : Operation β} {d : σ} {l : Option LoopState}
    (h : World.Opens b d c op items l)
    (hloop : ∀ info predicate condition body trips,
      op ≠ .loop info predicate condition body trips) : l = none := by
  cases h with
  | loop => exact absurd rfl (hloop _ _ _ _ _)
  | _ => rfl

end

namespace Crew

variable {s : Crew α Bench Empty} {i : Nat} {item : Item α Empty} {rest items : List (Item α Empty)}
  {tasks : List (Task Empty)} {w : World α Bench Empty} {run : RunKey → Option (Run α)}
  {call : CallKey → Option Call}

open Meaning

/-- An item lets a call in flight move on from one standing to another. -/
theorem Shows.stands (hs : s.Sound) (hf : s.Faithful) (hx : s.Shows c x)
    (hstands : m.Stands a s.world.device.arena op x y)
    (hy : s.world.call? c = some y) (hop : s.world.operation? c = some op)
    (hi : s.threads[i]? = some (item :: rest))
    (hb : (s.seenBy rest).Became w items tasks run call)
    (hm : CallMove P.backend (s.seenBy rest) item items call)
    (ht : (s.after i item w).Sound)
    (hran : ∀ n o z, item = .settleRun (c.nested n) o → m.Nests op a n z →
      m.Ran op.footprint z o s.world.device.arena) :
    ∃ x', (s.after i item w).Shows c x' ∧
      ∀ y', call c = some y' → m.Stands a s.world.device.arena op x' y' := by
  obtain ⟨x', hx', hmove⟩ := hx.move hs hf hi hb hm
  refine ⟨x', hx', fun y' hy' => ?_⟩
  have hfits := hx.fits
  rw [hy] at hfits
  obtain ⟨p, l⟩ := y
  have hsettled : ∀ {o}, (s.after i item w).SettledWith c o → y'.progress = .settled o := by
    have hcall : (s.after i item w).world.call? c = some y' := (congrFun hb.call c).trans hy'
    rintro o (⟨l', hl'⟩ | hended)
    · rw [hcall] at hl'
      cases hl'
      rfl
    · rw [ht.call?_of_ended hended] at hcall
      cases hcall
  cases hmove with
  | same =>
    by_cases hquiet : x = .quiet
    · subst hquiet
      cases hstands with
      | settled hdone => exact hdone.stands (hsettled (SettledWith.after hs (.inl ⟨_, hy⟩) hi hb hm))
      | turning hx => cases hx
    · obtain ⟨⟨p', hp'⟩, -⟩ := hx.still hs hx' hquiet hi hb hm hy
      obtain rfl := Option.some.inj (hp'.symm.trans hy')
      exact hstands.progress hquiet
  | body | branch | unread | loop =>
    rw [(hs.call?_of_call hi).1] at hy
    cases hy
  | turned hop' hc hturns hnext =>
    obtain rfl := Option.some.inj (hop'.symm.trans hop)
    obtain ⟨rfl, rfl⟩ := Call.mk.inj (Option.some.inj (hy.symm.trans hc))
    obtain ⟨l'', hturns', rfl⟩ := hm.of_iterate hc hop
    obtain ⟨rfl, rfl⟩ := hturns'.unique hturns
    rw [Function.update_self] at hy'
    cases hy'
    exact hstands.turned hturns hnext
  | lost hno =>
    cases hstands with
    | turn => exact absurd hop (hno _ _ _ _ _)
    | turning hx => cases hx
  | waits =>
    cases l with
    | none => exact hfits.elim
    | some l =>
      obtain rfl := hm.eq_of_entered hy hfits.2 hy'
      exact hstands.waits
  | advances hc hadv =>
    obtain ⟨rfl, rfl⟩ := Call.mk.inj (Option.some.inj (hy.symm.trans hc))
    obtain rfl := hm.eq_of_closing hc hfits.2 hy' hadv
    rw [hop] at hadv
    exact hstands.advances hadv
  | noted =>
    cases l with
    | none => exact hfits.elim
    | some l =>
      obtain rfl := hm.eq_of_noted hy hfits.2 hy'
      exact hstands.noted fun z => hran _ _ z rfl
  | goesOn hc hadv =>
    obtain ⟨rfl, rfl⟩ := Call.mk.inj (Option.some.inj (hy.symm.trans hc))
    obtain rfl := hm.eq_of_awaited hc hfits.2 hy' hadv
    rw [hop] at hadv
    exact hstands.goesOn (fun z => hran _ _ z rfl) hadv
  | passed hc =>
    obtain ⟨rfl, rfl⟩ := Call.mk.inj (Option.some.inj (hy.symm.trans hc))
    exact hstands.passed fun z => hran _ _ z rfl
  | settled =>
    cases hstands with
    | turning hx => cases hx
    | settling hdone => exact hdone.stands (hsettled (hx.settledWith hb hm))

/-- What follows from the call of an operation that runs nested regions shows that it is not at rest. -/
theorem Shows.eq_nil_of_quiet (hs : s.Sound) (hx : (s.after i (.call c) w).Shows c .quiet)
    (hleaf : ¬ (s.after i (.call c) w).IsLeaf c) (hi : s.threads[i]? = some (.call c :: rest))
    (hb : (s.seenBy rest).Became w items tasks run call) :
    (∀ k, (c, k) ∉ items.filterMap Item.token) ∧ ∀ n region, .start (c.nested n) region ∉ items := by
  have hlt := (List.getElem?_eq_some_iff.1 hi).1
  refine ⟨fun k hk => ?_, fun n region hmem => ?_⟩
  · have hpos : 0 < (s.after i (.call c) w).tokens.count (c, k) := by
      have := count_tokens_after hi hb (c, k)
      have hnone : (Item.call c : Item α Empty).token = none := rfl
      rw [hnone, Option.toList_none, List.count_nil] at this
      have := List.count_pos_iff.2 hk
      omega
    cases k with
    | settle o => rw [hx.settle hleaf] at hpos; cases hpos
    | iterate => rw [hx.iterate] at hpos; cases hpos
    | iterated => rw [hx.iterated] at hpos; cases hpos
  · have hpending : (s.after i (.call c) w).Pending (c.nested n) := by
      refine ⟨hasBegun_of_start hb hlt hmem, fun o ho => ?_⟩
      rcases mem_log_after.1 ho with ho | hitem
      · exact hs.not_resolved ((hs.call?_of_call hi).2 n) o ho
      · cases hitem
    cases (hx.nested n).1 hpending

/-- An operation that runs nested regions has been called, and has found what it is to find in the
slots that it declares. -/
theorem Shows.opened (hs : s.Sound) (hf : s.Faithful) (hx : s.Shows c x)
    (hop : s.world.operation? c = some op) (hleaf : ∀ info act, op ≠ .leaf info act)
    (hchooses : op.Chooses) (hA : s.world.device.arena.AgreeOn op.footprint a)
    (hi : s.threads[i]? = some (.call c :: rest))
    (hb : (s.seenBy rest).Became w items tasks run call)
    (hm : CallMove P.backend (s.seenBy rest) (.call c) items call) :
    ∃ x', (s.after i (.call c) w).Shows c x' ∧
      ∀ y', call c = some y' → m.Stands a s.world.device.arena op x' y' := by
  obtain ⟨x', hx', hmove⟩ := hx.move hs hf hi hb hm
  refine ⟨x', hx', fun y' hy' => ?_⟩
  have hquiet : x = .quiet := by
    have := hx.fits
    rw [(hs.call?_of_call hi).1] at this
    exact this.eq_quiet
  subst hquiet
  have hleaf' : ¬ (s.after i (.call c) w).IsLeaf c := by
    rw [isLeaf_after_iff rfl, hs.isLeaf_iff hop]
    rintro ⟨info, act, rfl⟩
    exact hleaf _ _ rfl
  have hread : ∀ {slice : Slice}, op.steering? = some slice →
      s.world.device.arena.read slice = a.read slice := fun h =>
    hA.read (Operation.mem_places_of_steering h)
  cases hm with
  | spares hitem => cases hitem
  | ended hitem | settled hitem | void hitem => simp [Item.Settles] at hitem
  | uncalled hop' => cases hop.symm.trans hop'
  | called hop' hopens =>
    obtain rfl := Option.some.inj (hop.symm.trans hop')
    rw [Function.update_self] at hy'
    cases hy'
    cases hmove with
    | same =>
      obtain ⟨hnotoken, hnostart⟩ := Shows.eq_nil_of_quiet hs hx' hleaf' hi hb
      rcases hopens.brings hleaf hchooses with ⟨k, hk⟩ | ⟨n, region, hstart⟩
      · exact absurd (by simp [hk]) (hnotoken k)
      · exact absurd (List.mem_append_left _ hstart) (hnostart n region)
    | body hop'' =>
      cases hop.symm.trans hop''
      cases hopens
      exact .inside .body (by rw [operation])
    | branch hop'' hbytes hbranch =>
      cases hop.symm.trans hop''
      have hbytes' : a.read _ = _ := (hread rfl).symm.trans hbytes
      obtain rfl := hopens.eq_none fun _ _ _ _ _ h => by cases h
      refine .inside (.branch hbytes' hbranch) ?_
      rw [operation]
      simp only [hbytes', m.branch_eq hbranch]
    | unread hop'' hbytes =>
      cases hop.symm.trans hop''
      have hbytes' : a.read _ = _ := (hread rfl).symm.trans hbytes
      refine .settling ⟨?_, fun ho => by cases ho⟩
      rw [operation]
      simp only [hbytes']
    | loop hop'' =>
      cases hop.symm.trans hop''
      cases hopens
      exact .turn rfl hA

end Crew

end Machine

end OpFlow
