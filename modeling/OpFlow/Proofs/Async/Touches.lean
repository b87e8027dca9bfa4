import OpFlow.Proofs.Async.Crew

/-!
What a step does to the cells: it touches one at most, by making it, by waiting for it or by settling
it.
-/
namespace OpFlow.Async

variable {α : Type}

/-- What a step does to the cells, which waiters it wakes, and what is noted. -/
inductive Touch (cells : Cells (Content α) (Ticketed α)) (t : Nat) :
    Cells (Content α) (Ticketed α) → List (Ticketed α) → List (Event α) → Prop
  | still {notes : List (Event α)} (h : ∀ e ∈ notes, ∃ c o, e = .made c o) :
    Touch cells t cells [] notes
  | made (o : Origin α) : Touch cells t (cells.add none) [] [.made cells.size o]
  | born (o : Origin α) (r : Result α) :
    Touch cells t (cells.add (some r)) [] [.made cells.size o, .settled cells.size r]
  | registered {c : Nat} (hc : cells.IsPending c) (k : Job α) :
    Touch cells t (cells.register c (t, k)) [] [.registered t c]
  | atOnce {c : Nat} (hc : cells.isSettled c) (k : Job α) :
    Touch cells t cells [(t, k)] [.registered t c]
  | settled {c : Nat} (hc : cells.IsPending c) (r : Result α) :
    Touch cells t (cells.settle c r).1 (cells.settle c r).2 [.settled c r]

namespace Event

def registered? : Event α → Option (Nat × Nat)
  | registered t c => some (t, c)
  | made _ _ | settled _ _ | ran _ | returned _ => none

def ran? : Event α → Option Nat
  | ran t => some t
  | made _ _ | settled _ _ | registered _ _ | returned _ => none

def isDue : Event α → Bool
  | ran _ | returned _ => true
  | made _ _ | settled _ _ | registered _ _ => false

end Event

def queued (c : Nat) (events : List (Event α)) : List Nat :=
  ((events.filterMap Event.registered?).filter (·.2 == c)).map Prod.fst

theorem queued_append (c : Nat) (events events' : List (Event α)) :
    queued c (events ++ events') = queued c events ++ queued c events' := by
  simp [queued]

theorem singleton_eq_append {β : Type} {a x : β} {pre post : List β} (h : [a] = pre ++ x :: post) :
    pre = [] ∧ x = a ∧ post = [] := by
  cases pre with
  | nil =>
    obtain ⟨rfl, rfl⟩ := List.cons.inj h
    exact ⟨rfl, rfl, rfl⟩
  | cons => simp at h

namespace Touch

variable {cells cells' : Cells (Content α) (Ticketed α)} {t : Nat} {woken : List (Ticketed α)}
  {notes : List (Event α)} (h : Touch cells t cells' woken notes)
include h

theorem size_le : cells.size ≤ cells'.size := by
  cases h <;> simp

/-- What is settled is what is noted. -/
theorem result? (c : Nat) (r : Result α) :
    cells'.result? c = some r ↔ cells.result? c = some r ∨ .settled c r ∈ notes := by
  cases h with
  | still h =>
    refine ⟨.inl, fun hc => hc.resolve_right fun hmem => ?_⟩
    obtain ⟨c', o, heq⟩ := h _ hmem
    cases heq
  | made o =>
    rw [Cells.result?_add]
    split
    · next hc => simp [hc, Cells.result?]
    · simp
  | born o x =>
    rw [Cells.result?_add]
    split
    · next hc => simp [hc, Cells.result?, eq_comm]
    · next hc => simp [hc]
  | registered hc k => simp
  | atOnce hc k => simp
  | settled hc x =>
    rw [Cells.result?_settle hc]
    split
    · next hd => simp [hd, hc.2, eq_comm]
    · next hd => simp [hd]

theorem settled? : notes.filterMap Event.settled? = [] ∨
    ∃ c, notes.filterMap Event.settled? = [c] ∧ cells.result? c = none := by
  cases h with
  | still h =>
    refine .inl (List.filterMap_eq_nil_iff.2 fun e he => ?_)
    obtain ⟨c, o, rfl⟩ := h e he
    rfl
  | made | registered | atOnce => exact .inl rfl
  | born => exact .inr ⟨cells.size, rfl, by simp [Cells.result?]⟩
  | settled hc => exact .inr ⟨_, rfl, hc.2⟩

theorem registered? : notes.filterMap Event.registered? = [] ∨
    ∃ c < cells.size, notes.filterMap Event.registered? = [(t, c)] := by
  cases h with
  | still h =>
    refine .inl (List.filterMap_eq_nil_iff.2 fun e he => ?_)
    obtain ⟨c, o, rfl⟩ := h e he
    rfl
  | made | born | settled => exact .inl rfl
  | registered hc => exact .inr ⟨_, hc.1, rfl⟩
  | atOnce hc =>
    obtain ⟨r, hr⟩ := Cells.isSettled_iff.1 hc
    exact .inr ⟨_, Cells.lt_size_of_result? hr, rfl⟩

theorem not_isDue {e : Event α} (he : e ∈ notes) : e.isDue = false := by
  cases h with
  | still h =>
    obtain ⟨c, o, rfl⟩ := h e he
    rfl
  | made | registered | atOnce | settled =>
    obtain rfl := List.mem_singleton.1 he
    rfl
  | born =>
    rcases List.mem_cons.1 he with rfl | he
    · rfl
    · obtain rfl := List.mem_singleton.1 he
      rfl

theorem ran? : notes.filterMap Event.ran? = [] := List.filterMap_eq_nil_iff.2 fun e he => by
  have hdue := h.not_isDue he
  cases e with
  | ran t => cases hdue
  | made | settled | registered | returned => rfl

/-- Who waits or is woken waited before or has been registered. -/
theorem tickets : (woken.map Prod.fst ++ cells'.allWaiters.map Prod.fst).Perm
    ((notes.filterMap Event.registered?).map Prod.fst ++ cells.allWaiters.map Prod.fst) := by
  cases h with
  | still h =>
    have hnone : notes.filterMap Event.registered? = [] := List.filterMap_eq_nil_iff.2 fun e he => by
      obtain ⟨c, o, rfl⟩ := h e he
      rfl
    rw [hnone]
    exact .refl _
  | made | born => rw [Cells.allWaiters_add]; exact .refl _
  | registered hc k => exact (Cells.perm_allWaiters_register cells hc.1 (t, k)).map Prod.fst
  | atOnce => exact .refl _
  | @settled c hc r =>
    have hperm := (Cells.perm_allWaiters_settle cells c r).map Prod.fst
    rwa [List.map_append] at hperm

/-- The waiters of a pending cell stay, and whoever is registered comes after them. -/
theorem waiters {d : Nat} (hd : cells'.IsPending d) :
    (cells'.waiters d).map Prod.fst = (cells.waiters d).map Prod.fst ++ queued d notes ∧
      (cells.IsPending d ∨ d = cells.size) := by
  cases h with
  | still h =>
    have hnone : notes.filterMap Event.registered? = [] := List.filterMap_eq_nil_iff.2 fun e he => by
      obtain ⟨c, o, rfl⟩ := h e he
      rfl
    exact ⟨by simp [queued, hnone], .inl hd⟩
  | made | born =>
    refine ⟨by simp [queued, List.filterMap_cons, Event.registered?], ?_⟩
    by_cases hsize : d = cells.size
    · exact .inr hsize
    · have hnone := hd.2
      have hlt := hd.1
      rw [Cells.result?_add, if_neg hsize] at hnone
      rw [Cells.size_add] at hlt
      exact .inl ⟨by omega, hnone⟩
  | @registered c hc k =>
    refine ⟨?_, .inl ⟨by simpa using hd.1, by simpa using hd.2⟩⟩
    rw [Cells.waiters_register hc.1]
    by_cases hdc : d = c
    · simp [hdc, queued, Event.registered?]
    · simp [hdc, Ne.symm hdc, queued, Event.registered?]
  | @atOnce c hc =>
    have hdc : c ≠ d := by
      rintro rfl
      rw [hd.not_isSettled] at hc
      cases hc
    exact ⟨by simp [hdc, queued, Event.registered?], .inl hd⟩
  | @settled c hc r =>
    have hdc : d ≠ c := by
      rintro rfl
      have hnone := hd.2
      rw [Cells.result?_settle hc, if_pos rfl] at hnone
      cases hnone
    refine ⟨?_, .inl ⟨by simpa using hd.1, ?_⟩⟩
    · simp [Cells.waiters_settle hc, hdc, queued, List.filterMap_cons, Event.registered?]
    · have hnone := hd.2
      rwa [Cells.result?_settle hc, if_neg hdc] at hnone

theorem of_woken {w : Ticketed α} (hw : w ∈ woken) : ∃ c, cells'.isSettled c ∧
    (w ∈ cells.waiters c ∧ cells.IsPending c ∨ w.1 = t ∧ .registered t c ∈ notes) := by
  cases h with
  | still | made | born | registered => cases hw
  | @atOnce c hc k =>
    obtain rfl := List.mem_singleton.1 hw
    exact ⟨c, hc, .inr ⟨rfl, List.mem_singleton_self _⟩⟩
  | @settled c hc r =>
    refine ⟨c, Cells.isSettled_iff.2 ⟨r, (Cells.result?_settle hc r c).trans (if_pos rfl)⟩, .inl ⟨?_, hc⟩⟩
    exact Cells.mem_waiters_of_mem_settle _ hw

omit h in
/-- Whoever settles a cell wakes all that wait for it. -/
theorem of_settled {pre post : List (Event α)} {c : Nat} {r : Result α}
    (h : Touch cells t cells' woken notes) (hnotes : notes = pre ++ .settled c r :: post) :
    cells.result? c = none ∧ woken = cells.waiters c ∧ pre.filterMap Event.registered? = [] ∧
      notes.filterMap Event.settled? = [c] ∧ post = [] := by
  have hmem : .settled c r ∈ notes := hnotes ▸ List.mem_append_right _ List.mem_cons_self
  cases h with
  | still h =>
    obtain ⟨c', o, heq⟩ := h _ hmem
    cases heq
  | made | registered | atOnce => cases List.mem_singleton.1 hmem
  | born o x =>
    cases pre with
    | nil => cases (List.cons.inj hnotes).1
    | cons e pre =>
      obtain ⟨rfl, htail⟩ := List.cons.inj hnotes
      obtain ⟨rfl, heq, rfl⟩ := singleton_eq_append htail
      obtain ⟨rfl, rfl⟩ := Event.settled.inj heq
      exact ⟨by simp [Cells.result?], (Cells.waiters_of_size_le (Nat.le_refl _)).symm, rfl, rfl, rfl⟩
  | settled hc x =>
    obtain ⟨rfl, heq, rfl⟩ := singleton_eq_append hnotes
    obtain ⟨rfl, rfl⟩ := Event.settled.inj heq
    exact ⟨hc.2, by rw [Cells.settle_of_isPending hc], rfl, rfl, rfl⟩

omit h in
/-- What is registered waits, or is woken at once if the cell is settled. -/
theorem of_registered {pre post : List (Event α)} {c t' : Nat}
    (h : Touch cells t cells' woken notes) (hnotes : notes = pre ++ .registered t' c :: post) :
    pre = [] ∧ post = [] ∧ t' = t ∧ (cells.isSettled c → ∃ k, woken = [(t, k)]) := by
  have hmem : .registered t' c ∈ notes := hnotes ▸ List.mem_append_right _ List.mem_cons_self
  cases h with
  | still h =>
    obtain ⟨c', o, heq⟩ := h _ hmem
    cases heq
  | made | settled => cases List.mem_singleton.1 hmem
  | born o x =>
    rcases List.mem_cons.1 hmem with heq | hmem
    · cases heq
    · cases List.mem_singleton.1 hmem
  | registered hc k =>
    obtain ⟨rfl, heq, rfl⟩ := singleton_eq_append hnotes
    obtain ⟨rfl, rfl⟩ := Event.registered.inj heq
    refine ⟨rfl, rfl, rfl, fun hsettled => ?_⟩
    rw [hc.not_isSettled] at hsettled
    cases hsettled
  | atOnce hc k =>
    obtain ⟨rfl, heq, rfl⟩ := singleton_eq_append hnotes
    obtain ⟨rfl, rfl⟩ := Event.registered.inj heq
    exact ⟨rfl, rfl, rfl, fun _ => ⟨k, rfl⟩⟩

end Touch

namespace NetworkOf

variable {n : NetworkOf α (Ticketed α)} {others : List (Job α)} {made : Made α} {c t : Nat}
  {j k : Job α} {turn : Turn α (Ticketed α)} {notes : List (Event α)}

theorem Owned.pending_of_owns (h : n.Owned (j :: others) made) {o : Origin α}
    (hj : j.owns? = some (c, o)) : n.cells.IsPending c :=
  h.pending_of_mem (o := o) (List.mem_append_left _ (List.mem_append_right _
    (List.mem_filterMap.2 ⟨j, List.mem_append_left _ List.mem_cons_self, hj⟩)))

theorem Owned.pending_of_promised (h : n.Owned others made) {i : Nat}
    (hc : n.promised? i = some c) : n.cells.IsPending c :=
  h.pending_of_mem (o := .promise) (List.mem_append_left _ (List.mem_append_left _
    (List.mem_map_of_mem ((promised_erase hc).mem_iff.2 List.mem_cons_self))))

theorem Deed.touch (hd : n.Deed (Prod.mk t) t j turn notes) (hp : n.Placed (j :: others))
    (h : n.Owned (j :: others) made) : Touch n.cells t turn.network.cells turn.woken notes := by
  cases hd with
  | idle | noted | split | stuck | uncounted | counted => exact .still (by simp)
  | shared _ hn => exact hn.cells ▸ .still (by simp)
  | trivial => exact .still (by simp)
  | registered hr hc => exact .registered ⟨lt_of_registers hp hr, hc⟩ _
  | atOnce hr hc => exact .atOnce hc _
  | promised | derived | joined => exact .made _
  | made hn => exact hn.cells ▸ .born _ _
  | kept hc => exact .settled (h.pending_of_promised hc) _
  | fired | completed => exact .settled (h.pending_of_owns rfl) _

end NetworkOf

end OpFlow.Async
