import OpFlow.Proofs.Async.Tickets
import Mathlib.Data.List.Nodup

/-!
When continuations run. Whoever settles a cell runs what was registered before, in the order of
registration, and then returns; what is registered afterwards runs at once.
-/
namespace OpFlow.Async

variable {α : Type}

def Piece.event? : Piece α → Option (Event α)
  | job _ => none
  | waiter w => some (.ran w.1)
  | back c => some (.returned c)

def Event.concerns (c : Nat) (early : List Nat) : Event α → Bool
  | ran t => early.contains t
  | returned d => d == c
  | made _ _ | settled _ _ | registered _ _ => false

def eventsOf (i : Nat) (log : List (Nat × Event α)) : List (Event α) :=
  log.filterMap fun e => if e.1 = i then some e.2 else none

@[simp] theorem eventsOf_append (i : Nat) (log log' : List (Nat × Event α)) :
    eventsOf i (log ++ log') = eventsOf i log ++ eventsOf i log' := List.filterMap_append ..

@[simp] theorem eventsOf_self (i : Nat) (notes : List (Event α)) :
    eventsOf i (notes.map (i, ·)) = notes := by
  simp [eventsOf]

theorem eventsOf_of_ne {i k : Nat} (h : k ≠ i) (notes : List (Event α)) :
    eventsOf k (notes.map (i, ·)) = [] := by
  simp [eventsOf, Ne.symm h]

theorem split_append {β : Type} {before new pre post : List β} {x : β}
    (h : before ++ new = pre ++ x :: post) :
    (∃ post', before = pre ++ x :: post' ∧ post = post' ++ new) ∨
      ∃ pre', pre = before ++ pre' ∧ new = pre' ++ x :: post := by
  rcases List.append_eq_append_iff.1 h with ⟨pre', hpre, hnew⟩ | ⟨tail, hbefore, htail⟩
  · exact .inr ⟨pre', hpre, hnew⟩
  · cases tail with
    | nil =>
      refine .inr ⟨[], by simpa using hbefore.symm, ?_⟩
      simpa using htail.symm
    | cons y tail =>
      obtain ⟨rfl, rfl⟩ := List.cons.inj htail
      exact .inl ⟨tail, hbefore, rfl⟩

namespace Crew

open NetworkOf

variable (s : Crew α)

/-- The continuations and returns that a thread has before it. -/
def ahead (i : Nat) : List (Event α) := (s.agenda i).filterMap Piece.event?

/-- Everything that is due has a reason, and comes in its order. -/
structure InOrder : Prop where
  backs : ∀ c, .back c ∈ s.pieces → (s.result? c).isSome
  held : ∀ w, .waiter w ∈ s.pieces →
    ∃ c, (w.1, c) ∈ s.registrations ∧ (s.result? c).isSome
  ran : ∀ pre i t post, s.log = pre ++ (i, .ran t) :: post →
    ∃ c r, .registered t c ∈ pre.map Prod.snd ∧ .settled c r ∈ pre.map Prod.snd
  fifo : ∀ pre i c r post, s.log = pre ++ (i, .settled c r) :: post →
    (eventsOf i post ++ s.ahead i).filter (Event.concerns c (queued c (pre.map Prod.snd))) =
      (queued c (pre.map Prod.snd)).map .ran ++ [.returned c]
  late : ∀ pre i t c post, s.log = pre ++ (i, .registered t c) :: post →
    (∃ r, .settled c r ∈ pre.map Prod.snd) →
    ((eventsOf i post).map some ++ (s.agenda i).map Piece.event?).head? = some (some (.ran t))

variable {s} {s' : Crew α} {i c t : Nat} {p : Piece α} {rest others : List (Piece α)} {j : Job α}

theorem mem_registrations : (t, c) ∈ s.registrations ↔ .registered t c ∈ s.events := by
  refine ⟨fun h => ?_, fun h => List.mem_filterMap.2 ⟨_, h, rfl⟩⟩
  obtain ⟨e, he, heq⟩ := List.mem_filterMap.1 h
  cases e with
  | registered t' c' =>
    obtain ⟨rfl, rfl⟩ := Prod.mk.inj (Option.some.inj heq)
    exact he
  | made | settled | ran | returned => cases heq

theorem mem_queued {events : List (Event α)} :
    t ∈ queued c events ↔ (t, c) ∈ events.filterMap Event.registered? := by
  simp [queued]

theorem Accounted.cell_eq (h : s.Accounted) {d : Nat} (hc : (t, c) ∈ s.registrations)
    (hd : (t, d) ∈ s.registrations) : c = d :=
  (Prod.mk.inj (List.inj_on_of_nodup_map h.nodup hc hd rfl)).2

/-- What is due after a step: the waiters that were woken, and the returns from what was settled. -/
theorem filterMap_event? (j : Job α) : (s.deal (.job j)).begun.filterMap Piece.event? =
    ((s.network.step (Prod.mk s.log.length) j).woken.map Prod.fst).map .ran ++
      ((s.deal (.job j)).notes.filterMap Event.settled?).map .returned := by
  have hwoken : ∀ woken : List (Ticketed α), (woken.map Piece.waiter).filterMap Piece.event? =
      (woken.map Prod.fst).map .ran := fun woken => by
    rw [List.filterMap_map, List.map_map]
    exact List.filterMap_eq_map (f := fun w : Ticketed α => Event.ran w.1) ▸ rfl
  have hback : ∀ cells : List Nat, (cells.map Piece.back : List (Piece α)).filterMap Piece.event? =
      cells.map .returned := fun cells => by
    rw [List.filterMap_map]
    exact List.filterMap_eq_map (f := Event.returned) ▸ rfl
  have hnext : ∀ next : List (Job α), (next.map Piece.job).filterMap Piece.event? = [] :=
    fun next => List.filterMap_eq_nil_iff.2 fun p hp => by
      obtain ⟨k, -, rfl⟩ := List.mem_map.1 hp
      rfl
  simp only [deal, Piece.deal, List.filterMap_append, hwoken, hback, hnext, List.append_nil]

namespace Acted

variable (h : s.Acted i p rest others s')
include h

theorem result?_mono (hs : s.Sound) {r : Result α} (hc : s.result? c = some r) :
    s'.result? c = some r := by
  cases p with
  | waiter | back => rw [result?, h.network]; exact hc
  | job j => exact ((h.touch hs).result? c r).2 (.inl hc)

theorem isSome_result? (hs : s.Sound) (hc : (s.result? c).isSome) : (s'.result? c).isSome := by
  obtain ⟨r, hr⟩ := Option.isSome_iff_exists.1 hc
  exact Option.isSome_of_eq_some (h.result?_mono hs hr)

theorem mem_pieces {q : Piece α} (hq : q ∈ others) : q ∈ s.pieces :=
  h.pieces.mem_iff.2 (List.mem_cons_of_mem _ hq)

theorem split {pre post : List (Nat × Event α)} {k : Nat} {e : Event α}
    (hlog : s'.log = pre ++ (k, e) :: post) :
    (∃ post', s.log = pre ++ (k, e) :: post' ∧ post = post' ++ (s.deal p).notes.map (i, ·)) ∨
      ∃ pre' post', pre = s.log ++ pre'.map (i, ·) ∧ (s.deal p).notes = pre' ++ e :: post' ∧ k = i ∧
        post = post'.map (i, ·) := by
  refine (split_append (h.log.symm.trans hlog)).imp_right fun ⟨pre', hpre, hnew⟩ => ?_
  obtain ⟨notes, tail, hnotes, rfl, htail⟩ := List.map_eq_append_iff.1 hnew
  obtain ⟨e', post', rfl, heq, rfl⟩ := List.map_eq_cons_iff.1 htail
  obtain ⟨rfl, rfl⟩ := Prod.mk.inj heq
  exact ⟨notes, post', hpre, hnotes, rfl, rfl⟩

end Acted

theorem Acted.woken (h : s.Acted i (.job j) rest others s') (hs : s.Sound) (ha : s.Accounted)
    {w : Ticketed α} (hw : w ∈ (s.network.step (Prod.mk s.log.length) j).woken) :
    ∃ d, (w.1, d) ∈ s'.registrations ∧ (s'.result? d).isSome ∧
      (s.result? d = none ∨ w.1 = s.log.length) := by
  obtain ⟨d, hd, ⟨hwaits, hpending⟩ | ⟨hnew, hnotes⟩⟩ := (h.touch hs).of_woken hw
  · refine ⟨d, ?_, hd, .inl hpending.2⟩
    have hmem := List.mem_map_of_mem (f := Prod.fst) hwaits
    rw [ha.queue d hpending, mem_queued] at hmem
    rw [h.registrations]
    exact List.mem_append_left _ hmem
  · refine ⟨d, ?_, hd, .inr hnew⟩
    rw [h.registrations, hnew]
    exact List.mem_append_right _ (List.mem_filterMap.2 ⟨_, hnotes, rfl⟩)

theorem mem_begun_job {q : Piece α} (hq : q ∈ (s.deal (.job j)).begun) :
    (∃ w ∈ (s.network.step (Prod.mk s.log.length) j).woken, q = .waiter w) ∨
      (∃ c ∈ (s.deal (.job j)).notes.filterMap Event.settled?, q = .back c) ∨ ∃ k, q = .job k := by
  rcases List.mem_append.1 hq with hq | hq
  · rcases List.mem_append.1 hq with hq | hq
    · obtain ⟨w, hw, rfl⟩ := List.mem_map.1 hq
      exact .inl ⟨w, hw, rfl⟩
    · obtain ⟨c, hc, rfl⟩ := List.mem_map.1 hq
      exact .inr (.inl ⟨c, hc, rfl⟩)
  · obtain ⟨k, -, rfl⟩ := List.mem_map.1 hq
    exact .inr (.inr ⟨k, rfl⟩)

theorem mem_settled? {events : List (Event α)} :
    c ∈ events.filterMap Event.settled? ↔ ∃ r, .settled c r ∈ events := by
  refine ⟨fun h => ?_, fun ⟨r, hr⟩ => List.mem_filterMap.2 ⟨_, hr, rfl⟩⟩
  obtain ⟨e, he, heq⟩ := List.mem_filterMap.1 h
  cases e with
  | settled c' r =>
    obtain rfl := Option.some.inj heq
    exact ⟨r, he⟩
  | made | registered | ran | returned => cases heq

namespace InOrder

/-- Nothing that is due concerns a cell that is pending. -/
theorem filter_pending (h : s.InOrder) (ha : s.Accounted) (hc : s.result? c = none)
    {pieces : List (Piece α)} (hpieces : ∀ p ∈ pieces, p ∈ s.pieces) :
    (pieces.filterMap Piece.event?).filter (Event.concerns c (queued c s.events)) = [] := by
  refine List.filter_eq_nil_iff.2 fun e he hconcerns => ?_
  obtain ⟨p, hp, heq⟩ := List.mem_filterMap.1 he
  cases p with
  | job j => cases heq
  | waiter w =>
    obtain rfl := Option.some.inj heq
    obtain ⟨d, hd, hsettled⟩ := h.held w (hpieces _ hp)
    have hmem := mem_queued.1 (List.contains_iff_mem.1 hconcerns)
    rw [ha.cell_eq hd hmem, hc] at hsettled
    cases hsettled
  | back d =>
    obtain rfl := Option.some.inj heq
    have hsettled := h.backs d (hpieces _ hp)
    rw [show d = c from eq_of_beq hconcerns, hc] at hsettled
    cases hsettled

/-- What a job leaves to its thread does not concern a cell that was settled before. -/
theorem filter_settled (hs : s.Sound) (ha : s.Accounted) (ha' : s'.Accounted)
    (h : s.Acted i (.job j) rest others s') (hc : (s.result? c).isSome) {early : List Nat}
    (hearly : ∀ t ∈ early, (t, c) ∈ s.registrations) :
    ((s.deal (.job j)).notes ++ (s.deal (.job j)).begun.filterMap Piece.event?).filter
      (Event.concerns c early) = [] := by
  refine List.filter_eq_nil_iff.2 fun e he hconcerns => ?_
  rcases List.mem_append.1 he with he | he
  · have hdue := (h.touch hs).not_isDue he
    cases e with
    | ran | returned => cases hdue
    | made | settled | registered => cases hconcerns
  · obtain ⟨p, hp, heq⟩ := List.mem_filterMap.1 he
    rcases mem_begun_job hp with ⟨w, hw, rfl⟩ | ⟨d, hd, rfl⟩ | ⟨k, rfl⟩
    · obtain rfl := Option.some.inj heq
      have hmem := hearly _ (List.contains_iff_mem.1 hconcerns)
      have hmem' : (w.1, c) ∈ s'.registrations := by
        rw [h.registrations]
        exact List.mem_append_left _ hmem
      obtain ⟨d, hd, -, hnone | hnew⟩ := h.woken hs ha hw
      · rw [ha'.cell_eq hmem' hd, hnone] at hc
        cases hc
      · exact Nat.ne_of_lt (ha.bounds _ _ hmem).1 hnew
    · obtain rfl := Option.some.inj heq
      obtain rfl : d = c := eq_of_beq hconcerns
      rcases (h.touch hs).settled? with hnone | ⟨d', hsome, hd'⟩
      · rw [hnone] at hd
        cases hd
      · rw [hsome] at hd
        obtain rfl := List.mem_singleton.1 hd
        rw [result?, hd'] at hc
        cases hc
    · cases heq

/-- Whoever settles a cell has before it all that was registered with the cell, and then the return. -/
theorem filter_settling (hs : s.Sound) (ha : s.Accounted) (h : s.Acted i (.job j) rest others s')
    {pre post : List (Event α)} {r : Result α}
    (hnotes : (s.deal (.job j)).notes = pre ++ .settled c r :: post) :
    ((s.deal (.job j)).begun.filterMap Piece.event?).filter (Event.concerns c (queued c s.events)) =
      (queued c s.events).map .ran ++ [.returned c] := by
  obtain ⟨hnone, hwoken, -, hsettled, -⟩ := (h.touch hs).of_settled hnotes
  have htickets : (s.network.cells.waiters c).map Prod.fst = queued c s.events := by
    by_cases hlt : c < s.network.cells.size
    · exact ha.queue c ⟨hlt, hnone⟩
    · have hle := Nat.le_of_not_lt hlt
      rw [Cells.waiters_of_size_le hle, ha.queued_of_size_le hle]
      rfl
  rw [filterMap_event?, hwoken, htickets, hsettled]
  refine List.filter_eq_self.2 fun e he => ?_
  rcases List.mem_append.1 he with he | he
  · obtain ⟨t, ht, rfl⟩ := List.mem_map.1 he
    exact List.contains_iff_mem.2 ht
  · obtain rfl := List.mem_singleton.1 he
    exact beq_self_eq_true c

theorem filter_course (hs : s.Sound) (ha : s.Accounted) (ha' : s'.Accounted)
    (h : s.Acted i p rest others s') (hc : (s.result? c).isSome) {early : List Nat}
    (hearly : ∀ t ∈ early, (t, c) ∈ s.registrations) :
    ((s.deal p).notes ++ s'.ahead i).filter (Event.concerns c early) =
      (s.ahead i).filter (Event.concerns c early) := by
  rw [ahead, ahead, h.after, h.before, List.filterMap_append]
  cases p with
  | waiter w => rfl
  | back d => rfl
  | job j =>
    rw [← List.append_assoc, List.filter_append, filter_settled hs ha ha' h hc hearly]
    rfl

theorem backs_act (hi : s.InOrder) (hs : s.Sound) (h : s.Acted i p rest others s')
    (hc : .back c ∈ s'.pieces) : (s'.result? c).isSome := by
  rcases List.mem_append.1 (h.pieces'.mem_iff.1 hc) with hc | hc
  · cases p with
    | waiter w => cases List.mem_singleton.1 hc
    | back d => cases hc
    | job j =>
      rcases mem_begun_job hc with ⟨w, -, heq⟩ | ⟨d, hd, heq⟩ | ⟨k, heq⟩
      · cases heq
      · obtain rfl := Piece.back.inj heq
        obtain ⟨r, hr⟩ := mem_settled?.1 hd
        exact Option.isSome_of_eq_some (((h.touch hs).result? c r).2 (.inr hr))
      · cases heq
  · exact h.isSome_result? hs (hi.backs c (h.mem_pieces hc))

theorem held_act (hi : s.InOrder) (hs : s.Sound) (ha : s.Accounted)
    (h : s.Acted i p rest others s') {w : Ticketed α} (hw : .waiter w ∈ s'.pieces) :
    ∃ c, (w.1, c) ∈ s'.registrations ∧ (s'.result? c).isSome := by
  rcases List.mem_append.1 (h.pieces'.mem_iff.1 hw) with hw | hw
  · cases p with
    | waiter w' => cases List.mem_singleton.1 hw
    | back d => cases hw
    | job j =>
      rcases mem_begun_job hw with ⟨w', hw', heq⟩ | ⟨d, -, heq⟩ | ⟨k, heq⟩
      · obtain rfl := Piece.waiter.inj heq
        obtain ⟨d, hd, hsettled, -⟩ := h.woken hs ha hw'
        exact ⟨d, hd, hsettled⟩
      · cases heq
      · cases heq
  · obtain ⟨c, hc, hsettled⟩ := hi.held w (h.mem_pieces hw)
    exact ⟨c, h.registrations ▸ List.mem_append_left _ hc, h.isSome_result? hs hsettled⟩

theorem ran_act (hi : s.InOrder) (hs : s.Sound) (ha : s.Accounted) (h : s.Acted i p rest others s')
    {pre post : List (Nat × Event α)} {k : Nat} (hlog : s'.log = pre ++ (k, .ran t) :: post) :
    ∃ c r, .registered t c ∈ pre.map Prod.snd ∧ .settled c r ∈ pre.map Prod.snd := by
  rcases h.split hlog with ⟨post', hold, -⟩ | ⟨pre', post', rfl, hnotes, rfl, -⟩
  · exact hi.ran pre k t post' hold
  · cases p with
    | waiter w =>
      obtain ⟨rfl, heq, -⟩ := singleton_eq_append hnotes
      obtain rfl := Event.ran.inj heq
      obtain ⟨c, hc, hsettled⟩ := hi.held w (mem_pieces (h.before ▸ List.mem_cons_self))
      obtain ⟨r, hr⟩ := Option.isSome_iff_exists.1 hsettled
      rw [List.map_nil, List.append_nil]
      exact ⟨c, r, mem_registrations.1 hc, (ha.results c r).1 hr⟩
    | back d => cases (singleton_eq_append hnotes).2.1
    | job j =>
      cases (h.touch hs).not_isDue (hnotes ▸ List.mem_append_right pre' List.mem_cons_self)

theorem fifo_act (hi : s.InOrder) (hs : s.Sound) (ha : s.Accounted) (ha' : s'.Accounted)
    (h : s.Acted i p rest others s') {pre post : List (Nat × Event α)} {k : Nat} {r : Result α}
    (hlog : s'.log = pre ++ (k, .settled c r) :: post) :
    (eventsOf k post ++ s'.ahead k).filter (Event.concerns c (queued c (pre.map Prod.snd))) =
      (queued c (pre.map Prod.snd)).map .ran ++ [.returned c] := by
  rcases h.split hlog with ⟨post', hold, rfl⟩ | ⟨pre', post', rfl, hnotes, rfl, rfl⟩
  · have hlaw := hi.fifo pre k c r post' hold
    by_cases hk : k = i
    · subst hk
      have hevents : s.events = pre.map Prod.snd ++ .settled c r :: post'.map Prod.snd := by
        rw [events, hold, List.map_append, List.map_cons]
      have hc : s.result? c = some r := (ha.results c r).2
        (hevents ▸ List.mem_append_right _ List.mem_cons_self)
      have hearly : ∀ t ∈ queued c (pre.map Prod.snd), (t, c) ∈ s.registrations := fun t ht => by
        rw [Crew.registrations, hevents, List.filterMap_append]
        exact List.mem_append_left _ (mem_queued.1 ht)
      rw [eventsOf_append, eventsOf_self, List.append_assoc, List.filter_append,
        filter_course hs ha ha' h (Option.isSome_of_eq_some hc) hearly, ← List.filter_append]
      exact hlaw
    · rw [eventsOf_append, eventsOf_of_ne hk, List.append_nil, ahead, h.elsewhere k hk]
      exact hlaw
  · cases p with
    | waiter | back => cases (singleton_eq_append hnotes).2.1
    | job j =>
      obtain ⟨hnone, -, hregistered, -, rfl⟩ := (h.touch hs).of_settled hnotes
      have hqueued : queued c ((s.log ++ pre'.map (k, ·)).map Prod.snd) = queued c s.events := by
        rw [List.map_append, queued_append, List.map_map,
          show Prod.snd ∘ (fun e : Event α => (k, e)) = id from rfl, List.map_id,
          show queued c pre' = [] by rw [queued, hregistered]; rfl, List.append_nil]
        rfl
      have hrest : ∀ q ∈ rest, q ∈ s.pieces := fun q hq =>
        Crew.mem_pieces (h.before ▸ List.mem_cons_of_mem _ hq)
      rw [hqueued, ahead, h.after, List.filterMap_append, List.map_nil,
        show eventsOf k ([] : List (Nat × Event α)) = [] from rfl, List.nil_append,
        List.filter_append, filter_settling hs ha h hnotes, hi.filter_pending ha hnone hrest,
        List.append_nil]

theorem late_act (hi : s.InOrder) (hs : s.Sound) (ha : s.Accounted)
    (h : s.Acted i p rest others s') {pre post : List (Nat × Event α)} {k : Nat}
    (hlog : s'.log = pre ++ (k, .registered t c) :: post)
    (hsettled : ∃ r, .settled c r ∈ pre.map Prod.snd) :
    ((eventsOf k post).map some ++ (s'.agenda k).map Piece.event?).head? = some (some (.ran t)) := by
  rcases h.split hlog with ⟨post', hold, rfl⟩ | ⟨pre', post', rfl, hnotes, rfl, rfl⟩
  · have hlaw := hi.late pre k t c post' hold hsettled
    by_cases hk : k = i
    · subst hk
      rw [eventsOf_append, eventsOf_self]
      cases heads : eventsOf k post' with
      | cons e es =>
        rw [heads] at hlaw
        exact hlaw
      | nil =>
        rw [heads, h.before] at hlaw
        cases p with
        | job | back => cases hlaw
        | waiter w => exact hlaw
    · rw [eventsOf_append, eventsOf_of_ne hk, List.append_nil, h.elsewhere k hk]
      exact hlaw
  · cases p with
    | waiter | back => cases (singleton_eq_append hnotes).2.1
    | job j =>
      obtain ⟨rfl, rfl, rfl, hwoken⟩ := (h.touch hs).of_registered hnotes
      rw [List.map_nil, List.append_nil] at hsettled
      obtain ⟨r, hr⟩ := hsettled
      obtain ⟨w, hw⟩ := hwoken (Cells.isSettled_iff.2 ⟨r, (ha.results c r).2 hr⟩)
      rw [h.after]
      simp only [deal, Piece.deal, hw]
      rfl

theorem act (hi : s.InOrder) (hs : s.Sound) (ha : s.Accounted) (hact : s.act? i = some s') :
    s'.InOrder := by
  have ha' := ha.act hs hact
  obtain ⟨p, rest, others, h⟩ := acted hact
  exact ⟨fun c => hi.backs_act hs h, fun w => hi.held_act hs ha h, fun _ _ _ _ => hi.ran_act hs ha h,
    fun _ _ _ _ _ => hi.fifo_act hs ha ha' h, fun _ _ _ _ _ => hi.late_act hs ha h⟩

theorem init : ({} : Crew α).InOrder where
  backs c hc := by cases hc
  held w hw := by cases hw
  ran pre i t post hlog := by
    have hmem : (i, Event.ran t) ∈ ({} : Crew α).log := hlog ▸ List.mem_append_right _ List.mem_cons_self
    simp at hmem
  fifo pre i c r post hlog := by
    match pre with
    | [] => simp at hlog
    | [_] =>
      obtain ⟨rfl, htail⟩ := List.cons.inj hlog
      obtain ⟨heq, rfl⟩ := List.cons.inj htail
      obtain ⟨rfl, hevent⟩ := Prod.mk.inj heq
      obtain ⟨rfl, rfl⟩ := Event.settled.inj hevent
      rfl
    | [_, _] => simp at hlog
    | _ :: _ :: _ :: _ => simp at hlog
  late pre i t c post hlog _ := by
    have hmem : (i, Event.registered t c) ∈ ({} : Crew α).log :=
      hlog ▸ List.mem_append_right _ List.mem_cons_self
    simp at hmem

/-- A thread that has come has nothing due yet. -/
theorem enter (h : s.InOrder) (a : Action α) : (s.enter a).InOrder := by
  have hpieces : ∀ q, q ∈ (s.enter a).pieces → q ∈ s.pieces ∨ q = .job (.act a) := fun q hq => by
    simpa [pieces, Crew.enter, or_comm] using hq
  have hagenda : ∀ i, (s.enter a).agenda i = s.agenda i ∨
      s.agenda i = [] ∧ (s.enter a).agenda i = [.job (.act a)] := fun i => by
    rw [agenda_enter]
    by_cases hi : i = s.threads.length
    · exact .inr ⟨hi ▸ s.agenda_length, if_pos hi⟩
    · exact .inl (if_neg hi)
  refine ⟨fun c hc => ?_, fun w hw => ?_, h.ran, fun pre i c r post hlog => ?_,
    fun pre i t c post hlog hr => ?_⟩
  · exact h.backs c ((hpieces _ hc).resolve_right (by simp))
  · exact h.held w ((hpieces _ hw).resolve_right (by simp))
  · have hahead : (s.enter a).ahead i = s.ahead i := by
      rcases hagenda i with heq | ⟨hnil, heq⟩
      · rw [ahead, heq, ahead]
      · rw [ahead, heq, ahead, hnil]
        rfl
    rw [hahead]
    exact h.fifo pre i c r post hlog
  · have hlaw := h.late pre i t c post hlog hr
    rcases hagenda i with heq | ⟨hnil, heq⟩
    · rw [heq]
      exact hlaw
    · rw [hnil] at hlaw
      cases heads : eventsOf i post with
      | nil =>
        rw [heads] at hlaw
        cases hlaw
      | cons e es =>
        rw [heads] at hlaw
        exact hlaw

end InOrder

theorem Reachable.inOrder (hs : s.Reachable) : s.InOrder := by
  induction hs with
  | refl => exact .init
  | tail hbefore hstep ih =>
    cases hstep with
    | act h => exact ih.act (Reachable.sound hbefore) (Reachable.accounted hbefore) h
    | enter a => exact ih.enter a

end Crew

end OpFlow.Async
