import OpFlow.Proofs.Async.Touches

/-!
What the log of a crew accounts for: what the cells hold, and every continuation that has been
registered, which has run, is about to run, or waits.
-/
namespace OpFlow.Async

variable {α : Type}

def Piece.ticket? : Piece α → Option Nat
  | waiter w => some w.1
  | job _ | back _ => none

namespace Crew

open NetworkOf

variable (s : Crew α)

def ran : List Nat := s.events.filterMap Event.ran?

/-- The continuations that threads are to run. -/
def held : List Nat := s.pieces.filterMap Piece.ticket?

def waiting : List Nat := s.network.cells.allWaiters.map Prod.fst

def registrations : List (Nat × Nat) := s.events.filterMap Event.registered?

/-- The log accounts for all that the cells hold. -/
structure Accounted : Prop where
  results : ∀ c r, s.result? c = some r ↔ .settled c r ∈ s.events
  once : (s.events.filterMap Event.settled?).Nodup
  tickets : (s.ran ++ s.held ++ s.waiting).Perm (s.registrations.map Prod.fst)
  nodup : (s.registrations.map Prod.fst).Nodup
  bounds : ∀ t c, (t, c) ∈ s.registrations → t < s.log.length ∧ c < s.network.cells.size
  queue : ∀ c, s.network.cells.IsPending c →
    (s.network.cells.waiters c).map Prod.fst = queued c s.events

variable {s} {s' : Crew α} {i c t : Nat} {p : Piece α} {rest others : List (Piece α)} {j : Job α}

theorem Acted.touch (h : s.Acted i (.job j) rest others s') (hs : s.Sound) :
    Touch s.network.cells s.log.length s'.network.cells
      (s.network.step (Prod.mk s.log.length) j).woken (s.deal (.job j)).notes := by
  rw [h.network]
  exact Deed.touch (deed (n := s.network) (Prod.mk s.log.length) s.log.length j)
    (hs.placed.perm h.pool.symm) (hs.owned.perm h.pool.symm)

theorem Acted.length_le (h : s.Acted i p rest others s') : s.log.length ≤ s'.log.length := by
  rw [h.log, List.length_append]
  exact Nat.le_add_right ..

theorem Acted.ran (h : s.Acted i p rest others s') :
    s'.ran = s.ran ++ (s.deal p).notes.filterMap Event.ran? := by
  rw [Crew.ran, h.events, List.filterMap_append, Crew.ran]

theorem Acted.registrations (h : s.Acted i p rest others s') : s'.registrations =
    s.registrations ++ (s.deal p).notes.filterMap Event.registered? := by
  rw [Crew.registrations, h.events, List.filterMap_append, Crew.registrations]

/-- The continuations that a step leaves to its thread. -/
theorem filterMap_ticket? (j : Job α) : (s.deal (.job j)).begun.filterMap Piece.ticket? =
    (s.network.step (Prod.mk s.log.length) j).woken.map Prod.fst := by
  have hback : ∀ cells : List Nat,
      (cells.map Piece.back : List (Piece α)).filterMap Piece.ticket? = [] := fun cells =>
    List.filterMap_eq_nil_iff.2 fun p hp => by
      obtain ⟨c, -, rfl⟩ := List.mem_map.1 hp
      rfl
  have hwoken : ∀ woken : List (Ticketed α),
      (woken.map Piece.waiter).filterMap Piece.ticket? = woken.map Prod.fst := fun woken => by
    rw [List.filterMap_map]
    exact List.filterMap_eq_map (f := Prod.fst) ▸ rfl
  have hnext : ∀ next : List (Job α), (next.map Piece.job).filterMap Piece.ticket? = [] :=
    fun next => List.filterMap_eq_nil_iff.2 fun p hp => by
      obtain ⟨k, -, rfl⟩ := List.mem_map.1 hp
      rfl
  simp only [deal, Piece.deal, List.filterMap_append, hback, hwoken, hnext, List.append_nil]

namespace Accounted

theorem init : ({} : Crew α).Accounted where
  results c r := by
    have hsettled : Event.settled c r ∈ ({} : Crew α).events ↔ c = 0 ∧ r = .ok .done := by
      simp [events]
    have hresult : ({} : Crew α).result? c = some r ↔ c = 0 ∧ r = .ok .done := by
      cases c with
      | zero => exact ⟨fun h => ⟨rfl, (Option.some.inj h).symm⟩, fun h => congrArg some h.2.symm⟩
      | succ c =>
        have hnone : ({} : Crew α).result? (c + 1) = none := rfl
        simp [hnone]
    rw [hresult, hsettled]
  once := List.pairwise_singleton _ _
  tickets := .refl _
  nodup := .nil
  bounds t c h := by cases h
  queue c hc := by
    obtain rfl : c = 0 := Nat.lt_one_iff.1 hc.1
    cases hc.2

/-- The cells stay as they are. -/
theorem same (h : s.Accounted) (hcells : s'.network.cells = s.network.cells)
    (notes : List (Event α)) (hevents : s'.events = s.events ++ notes)
    (hsettled : ∀ c r, .settled c r ∉ notes) (hregistered : notes.filterMap Event.registered? = [])
    (hlog : s.log.length ≤ s'.log.length) (htickets : (s'.ran ++ s'.held).Perm (s.ran ++ s.held)) :
    s'.Accounted := by
  have hregistrations : s'.registrations = s.registrations := by
    rw [registrations, hevents, List.filterMap_append, hregistered, List.append_nil, registrations]
  refine ⟨fun c r => ?_, ?_, ?_, hregistrations ▸ h.nodup, fun t c hc => ?_, fun c hc => ?_⟩
  · rw [result?, hcells, hevents, List.mem_append, or_iff_left (hsettled c r)]
    exact h.results c r
  · have hnone : notes.filterMap Event.settled? = [] := List.filterMap_eq_nil_iff.2 fun e he => by
      cases e with
      | settled c r => exact absurd he (hsettled c r)
      | made | registered | ran | returned => rfl
    rw [hevents, List.filterMap_append, hnone, List.append_nil]
    exact h.once
  · rw [hregistrations, waiting, hcells]
    exact (htickets.append_right _).trans h.tickets
  · rw [hregistrations] at hc
    rw [hcells]
    exact ⟨Nat.lt_of_lt_of_le (h.bounds t c hc).1 hlog, (h.bounds t c hc).2⟩
  · rw [hcells] at hc ⊢
    rw [hevents, queued_append, show queued c notes = [] by rw [queued, hregistered]; rfl,
      List.append_nil]
    exact h.queue c hc

theorem queued_of_size_le (h : s.Accounted) (hc : s.network.cells.size ≤ c) :
    queued c s.events = [] := by
  refine List.map_eq_nil_iff.2 (List.filter_eq_nil_iff.2 fun x hx heq => ?_)
  have hlt := (h.bounds x.1 x.2 hx).2
  rw [eq_of_beq heq] at hlt
  exact Nat.lt_irrefl _ (Nat.lt_of_lt_of_le hlt hc)

section Job

/-! A job is done. -/

variable (h : s.Accounted) (hs : s.Sound) (hacted : s.Acted i (.job j) rest others s')

include h hs hacted

theorem once_acted : (s'.events.filterMap Event.settled?).Nodup := by
  have htouch := hacted.touch hs
  rw [hacted.events, List.filterMap_append]
  refine List.nodup_append.2 ⟨h.once, ?_, fun c hc c' hc' => ?_⟩
  · rcases htouch.settled? with hnone | ⟨c, hsome, -⟩
    · rw [hnone]; exact .nil
    · rw [hsome]; exact List.pairwise_singleton _ _
  · rcases htouch.settled? with hnone | ⟨d, hsome, hd⟩
    · rw [hnone] at hc'; cases hc'
    · -- what is settled now was not settled before
      rw [hsome] at hc'
      obtain rfl := List.mem_singleton.1 hc'
      rintro rfl
      obtain ⟨e, he, hsettled⟩ := List.mem_filterMap.1 hc
      cases e with
      | settled c' r =>
        obtain rfl := Option.some.inj hsettled
        have hr := (h.results _ r).2 he
        rw [result?, hd] at hr
        cases hr
      | made | registered | ran | returned => cases hsettled

/-- Who is woken is held then, and who is registered waits or is held. -/
theorem tickets_acted :
    (s'.ran ++ s'.held ++ s'.waiting).Perm (s'.registrations.map Prod.fst) := by
  have htouch := hacted.touch hs
  have hheld : s'.held.Perm
      ((s.network.step (Prod.mk s.log.length) j).woken.map Prod.fst ++ s.held) := by
    have hnow := hacted.pieces'.filterMap Piece.ticket?
    rw [List.filterMap_append, filterMap_ticket?] at hnow
    exact hnow.trans ((hacted.pieces.filterMap Piece.ticket?).symm.append_left _)
  rw [hacted.ran, htouch.ran?, List.append_nil, hacted.registrations, List.map_append]
  refine List.perm_iff_count.2 fun t => ?_
  have hold := h.tickets.count_eq t
  have hheld := hheld.count_eq t
  have hnew := htouch.tickets.count_eq t
  simp only [List.count_append, waiting] at hold hheld hnew ⊢
  omega

theorem nodup_acted : (s'.registrations.map Prod.fst).Nodup := by
  have htouch := hacted.touch hs
  rw [hacted.registrations, List.map_append]
  refine List.nodup_append.2 ⟨h.nodup, ?_, fun t ht t' ht' => ?_⟩
  · rcases htouch.registered? with hnone | ⟨c, -, hsome⟩
    · rw [hnone]; exact .nil
    · rw [hsome]; exact List.pairwise_singleton _ _
  · rcases htouch.registered? with hnone | ⟨c, -, hsome⟩
    · rw [hnone] at ht'; cases ht'
    · rw [hsome] at ht'
      obtain rfl := List.mem_singleton.1 ht'
      obtain ⟨⟨t, d⟩, hmem, rfl⟩ := List.mem_map.1 ht
      exact Nat.ne_of_lt (h.bounds t d hmem).1

theorem bounds_acted (hc : (t, c) ∈ s'.registrations) :
    t < s'.log.length ∧ c < s'.network.cells.size := by
  have htouch := hacted.touch hs
  have hsize := htouch.size_le
  rw [hacted.registrations] at hc
  rcases List.mem_append.1 hc with hc | hc
  · obtain ⟨ht, hc⟩ := h.bounds t c hc
    exact ⟨Nat.lt_of_lt_of_le ht hacted.length_le, Nat.lt_of_lt_of_le hc hsize⟩
  · rcases htouch.registered? with hnone | ⟨d, hd, hsome⟩
    · rw [hnone] at hc; cases hc
    · have hpos : 0 < (s.deal (.job j)).notes.length := by
        refine List.length_pos_iff.2 fun hnil => ?_
        rw [hnil] at hsome
        cases hsome
      rw [hsome] at hc
      obtain ⟨rfl, rfl⟩ := Prod.mk.inj (List.mem_singleton.1 hc)
      rw [hacted.log, List.length_append, List.length_map]
      exact ⟨by omega, Nat.lt_of_lt_of_le hd hsize⟩

theorem queue_acted (hc : s'.network.cells.IsPending c) :
    (s'.network.cells.waiters c).map Prod.fst = queued c s'.events := by
  obtain ⟨hwaiters, hold⟩ := (hacted.touch hs).waiters hc
  rw [hwaiters, hacted.events, queued_append]
  congr 1
  rcases hold with hold | rfl
  · exact h.queue c hold
  · rw [Cells.waiters_of_size_le (Nat.le_refl _), h.queued_of_size_le (Nat.le_refl _)]
    rfl

end Job

theorem act (h : s.Accounted) (hs : s.Sound) (hact : s.act? i = some s') : s'.Accounted := by
  obtain ⟨p, rest, others, hacted⟩ := acted hact
  have hheld := hacted.pieces.filterMap Piece.ticket?
  have hheld' := hacted.pieces'.filterMap Piece.ticket?
  cases p with
  | waiter w =>
    refine h.same (congrArg NetworkOf.cells hacted.network) _ hacted.events
      (by simp [deal, Piece.deal]) rfl hacted.length_le ?_
    rw [hacted.ran, List.append_assoc]
    exact (hheld'.append_left _).trans (hheld.symm) |>.append_left _
  | back c =>
    refine h.same (congrArg NetworkOf.cells hacted.network) _ hacted.events
      (by simp [deal, Piece.deal]) rfl hacted.length_le ?_
    rw [hacted.ran, List.append_assoc]
    exact (hheld'.trans hheld.symm).append_left _
  | job j =>
    have htouch := hacted.touch hs
    refine ⟨fun c r => ?_, h.once_acted hs hacted, h.tickets_acted hs hacted,
      h.nodup_acted hs hacted, fun t c => h.bounds_acted hs hacted,
      fun c => h.queue_acted hs hacted⟩
    rw [result?, htouch.result?, hacted.events, List.mem_append, ← h.results]
    rfl

theorem enter (h : s.Accounted) (a : Action α) : (s.enter a).Accounted := by
  refine h.same rfl [] (List.append_nil _).symm (by simp) rfl (Nat.le_refl _) ?_
  refine .append_left _ (.of_eq ?_)
  simp [held, pieces, Crew.enter, Piece.ticket?]

end Accounted

theorem Reachable.accounted (hs : s.Reachable) : s.Accounted := by
  induction hs with
  | refl => exact .init
  | tail hbefore hstep ih =>
    cases hstep with
    | act h => exact ih.act (Reachable.sound hbefore) h
    | enter a => exact ih.enter a

end Crew

end OpFlow.Async
