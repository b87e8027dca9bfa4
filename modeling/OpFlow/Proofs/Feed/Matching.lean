import OpFlow.Proofs.Feed.Traffic

/-!
A feed is first in, first out, whoever uses it and however they take turns: the `k`th request gets the
`k`th buffer, once. Each step of a thread keeps the numbers of buffers and requests matched.
-/
namespace OpFlow.Feed.Traffic

variable {κ : Type}

/-- Buffers and requests are matched by number. -/
structure Sound (s : Traffic κ) : Prop where
  matched : (s.received ++ s.due).Perm (s.enqueued.take s.requested).zipIdx
  buffers : s.feed.buffers = s.enqueued.drop s.requested
  waiters : s.feed.waiters = List.range' s.enqueued.length (s.requested - s.enqueued.length)
  size : s.cells.size = s.requested
  held : ∀ k r, s.cells.result? k = some r ↔ ∃ b, (b, k) ∈ s.received ∧ r = .ok b
  /-- What a thread has to hand out, it does before anything else. -/
  prompt : ∀ i, ∀ p ∈ (s.agenda i).tail, p.due? = none

variable {s s' : Traffic κ} {i : Nat} {calls : List (Call κ)} {p : Piece κ}

/-- A thread that has nothing to hand out but first still has nothing to hand out later. -/
theorem Acted.prompt {others : List (Bytes × Nat)} (h : s.Acted i calls p others s') (hs : s.Sound)
    (hbegun : ∀ q ∈ (s.deal calls p).begun.tail, q.due? = none) (k : Nat) :
    ∀ q ∈ (s'.agenda k).tail, q.due? = none := by
  by_cases hk : k = i
  · subst hk
    obtain ⟨rest, hold, hnew⟩ := h.agenda
    have hrest : ∀ q ∈ rest, q.due? = none := by simpa [hold] using hs.prompt k
    intro q hq
    rw [hnew] at hq
    cases hb : (s.deal calls p).begun with
    | nil =>
      rw [hb, List.nil_append] at hq
      exact hrest q (List.mem_of_mem_tail hq)
    | cons b bs =>
      rw [hb, List.cons_append, List.tail_cons] at hq
      rcases List.mem_append.1 hq with hq | hq
      · exact hbegun q (by rwa [hb])
      · exact hrest q hq
  · rw [h.elsewhere k hk]
    exact hs.prompt k

namespace Sound

theorem init : ({} : Traffic κ).Sound where
  matched := .refl _
  buffers := rfl
  waiters := rfl
  size := rfl
  held k r := by simp [Cells.result?, received]
  prompt i := by simp [agenda]

variable (h : s.Sound)
include h

theorem length_buffers : s.feed.buffers.length = s.enqueued.length - s.requested := by
  rw [h.buffers, List.length_drop]

theorem length_waiters : s.feed.waiters.length = s.requested - s.enqueued.length := by
  rw [h.waiters, List.length_range']

theorem getElem?_of_mem {b : Bytes} {k : Nat} (hb : (b, k) ∈ s.received ++ s.due) :
    s.enqueued[k]? = some b ∧ k < s.requested := by
  have hmem := List.mem_zipIdx_iff_getElem?.1 (h.matched.mem_iff.1 hb)
  rw [List.getElem?_take] at hmem
  split at hmem
  · next hk => exact ⟨hmem, hk⟩
  · cases hmem

theorem nodup : ((s.received ++ s.due).map Prod.snd).Nodup := by
  rw [(h.matched.map Prod.snd).nodup_iff, List.zipIdx_map_snd]
  exact List.nodup_range'

theorem isPending_of_due {b : Bytes} {k : Nat} (hb : (b, k) ∈ s.due) : s.cells.IsPending k := by
  refine ⟨h.size ▸ (h.getElem?_of_mem (List.mem_append_right _ hb)).2, ?_⟩
  by_contra hsettled
  obtain ⟨r, hr⟩ := Option.ne_none_iff_exists'.1 hsettled
  obtain ⟨b', hb', -⟩ := (h.held k r).1 hr
  have hdisjoint := (List.nodup_append.1 (List.map_append ▸ h.nodup)).2.2
  exact hdisjoint k (List.mem_map_of_mem hb') k (List.mem_map_of_mem hb) rfl

theorem enter (calls : List (Call κ)) : (s.enter calls).Sound := by
  have hnone : ∀ p ∈ calls.map Piece.call, p.due? = none := due?_of_mem_map_call calls
  refine ⟨?_, h.buffers, h.waiters, h.size, h.held, fun i => ?_⟩
  · have hdue : (s.enter calls).due = s.due := by
      simp only [Traffic.enter, due, List.flatten_append, List.flatten_singleton,
        List.filterMap_append, List.filterMap_eq_nil_iff.2 hnone, List.append_nil]
    rw [hdue]
    exact h.matched
  · rw [agenda_enter]
    split
    · exact fun p hp => hnone p (List.mem_of_mem_tail hp)
    · exact h.prompt i

/-- A step that concerns neither the feed nor what the cells hold. -/
theorem same {others : List (Bytes × Nat)} (hacted : s.Acted i calls p others s')
    (hfeed : (s.deal calls p).feed = s.feed) (hsize : (s.deal calls p).cells.size = s.cells.size)
    (hcells : ∀ k, (s.deal calls p).cells.result? k = s.cells.result? k)
    (hnotes : (s.deal calls p).notes = []) (hp : p.due? = none)
    (hbegun : ∀ q ∈ (s.deal calls p).begun, q.due? = none) : s'.Sound := by
  have henqueued : s'.enqueued = s.enqueued := by rw [hacted.enqueued, hnotes]; simp
  have hrequested : s'.requested = s.requested := by rw [hacted.requested, hnotes]; simp
  have hreceived : s'.received = s.received := by rw [hacted.received, hnotes]; simp
  have hdue : s'.due.Perm s.due := by
    refine hacted.due'.trans (.trans (.of_eq ?_) hacted.due.symm)
    rw [hp, List.filterMap_eq_nil_iff.2 hbegun]
    rfl
  refine ⟨?_, ?_, ?_, ?_, fun k r => ?_, hacted.prompt h fun q hq => hbegun q (List.mem_of_mem_tail hq)⟩
  · rw [henqueued, hrequested, hreceived]
    exact (hdue.append_left _).trans h.matched
  · rw [hacted.feed, hfeed, henqueued, hrequested, h.buffers]
  · rw [hacted.feed, hfeed, henqueued, hrequested, h.waiters]
  · rw [hacted.cells, hsize, hrequested, h.size]
  · rw [hacted.cells, hcells, hreceived, h.held]

/-- What the cells hold when a request has got its buffer. -/
theorem held_concat {b : Bytes} {k : Nat} (hk : s.cells.result? k = none)
    (hreceived : s'.received = s.received ++ [(b, k)])
    (hcells : ∀ d, s'.cells.result? d = if d = k then some (.ok b) else s.cells.result? d) (d : Nat)
    (r : Except Error Bytes) :
    s'.cells.result? d = some r ↔ ∃ b, (b, d) ∈ s'.received ∧ r = .ok b := by
  have hnot : ∀ b', (b', k) ∉ s.received := fun b' hb' => by
    have := (h.held k (.ok b')).2 ⟨b', hb', rfl⟩
    rw [hk] at this
    cases this
  simp only [hcells, hreceived, List.mem_append, List.mem_singleton, Prod.mk.injEq]
  split
  · next hd =>
    subst hd
    simp [hnot, eq_comm]
  · next hd => simp [hd, h.held d r]

/-- Nobody waits: no request is ahead of the buffers, and the feed keeps this one. -/
theorem enqueue_kept {b : Bytes} {others : List (Bytes × Nat)} (hw : s.feed.waiters = [])
    (hacted : s.Acted i calls (.call (.enqueue b)) others s') : s'.Sound := by
  have hle : s.requested ≤ s.enqueued.length := by
    have hlength := h.length_waiters
    rw [hw] at hlength
    exact Nat.le_of_sub_eq_zero hlength.symm
  have henqueued : s'.enqueued = s.enqueued ++ [b] := hacted.enqueued
  have hrequested : s'.requested = s.requested := hacted.requested
  have hreceived : s'.received = s.received := hacted.received.trans (List.append_nil _)
  have hfeed : s'.feed = ⟨s.feed.buffers ++ [b], []⟩ := by
    rw [hacted.feed, deal, enqueue_of_nil hw]
  have hdue : s'.due.Perm s.due := by
    refine hacted.due'.trans (.trans (.of_eq ?_) hacted.due.symm)
    rw [deal, enqueue_of_nil hw]
    rfl
  refine ⟨?_, ?_, ?_, ?_, ?_, hacted.prompt h ?_⟩
  · rw [hreceived, henqueued, hrequested, List.take_append_of_le_length hle]
    exact (hdue.append_left _).trans h.matched
  · rw [hfeed, henqueued, hrequested, List.drop_append_of_le_length hle, h.buffers]
  · rw [hfeed, henqueued, hrequested, List.length_append,
      Nat.sub_eq_zero_of_le (Nat.le_trans hle (Nat.le_add_right ..)), List.range'_zero]
  · rw [hacted.cells, hrequested, ← h.size]
    rfl
  · rw [hacted.cells, hreceived]
    exact h.held
  · rw [deal, enqueue_of_nil hw]
    simp

/-- The request that has waited longest has the number of the new buffer. -/
theorem enqueue_handed {b : Bytes} {w : Nat} {ws : List Nat} {others : List (Bytes × Nat)}
    (hw : s.feed.waiters = w :: ws) (hacted : s.Acted i calls (.call (.enqueue b)) others s') :
    s'.Sound := by
  have hlt : s.enqueued.length + 1 ≤ s.requested := by
    have hlength := h.length_waiters
    rw [hw, List.length_cons] at hlength
    omega
  obtain ⟨rfl, hws⟩ : w = s.enqueued.length ∧
      ws = List.range' (s.enqueued.length + 1) (s.requested - (s.enqueued.length + 1)) := by
    have hwaiters := h.waiters
    rw [hw, ← Nat.sub_add_cancel (Nat.sub_pos_of_lt hlt), List.range'_succ] at hwaiters
    exact List.cons_eq_cons.1 hwaiters
  have henqueued : s'.enqueued = s.enqueued ++ [b] := hacted.enqueued
  have hrequested : s'.requested = s.requested := hacted.requested
  have hreceived : s'.received = s.received := hacted.received.trans (List.append_nil _)
  have hlength : s'.enqueued.length = s.enqueued.length + 1 := by
    rw [henqueued, List.length_append, List.length_singleton]
  have hfeed : s'.feed = ⟨s.feed.buffers, ws⟩ := by rw [hacted.feed, deal, enqueue_of_cons hw]
  have hdue : s'.due.Perm ((b, s.enqueued.length) :: s.due) := by
    refine hacted.due'.trans (.trans (.of_eq ?_) (hacted.due.symm.cons _))
    rw [deal, enqueue_of_cons hw]
    rfl
  have hnumbered : (s'.enqueued.take s'.requested).zipIdx =
      (s.enqueued.take s.requested).zipIdx ++ [(b, s.enqueued.length)] := by
    rw [hrequested, List.take_of_length_le (hlength ▸ hlt), henqueued,
      List.take_of_length_le (Nat.le_of_succ_le hlt), List.zipIdx_append, Nat.zero_add]
    rfl
  refine ⟨?_, ?_, ?_, ?_, ?_, hacted.prompt h ?_⟩
  · rw [hnumbered, hreceived]
    refine (hdue.append_left _).trans (List.perm_middle.trans ?_)
    exact (h.matched.cons _).trans (List.perm_append_singleton ..).symm
  · rw [hfeed, h.buffers, hrequested, List.drop_eq_nil_of_le (Nat.le_of_succ_le hlt),
      List.drop_eq_nil_of_le (hlength ▸ hlt)]
  · rw [hfeed, hws, hlength, hrequested]
  · rw [hacted.cells, hrequested, ← h.size]
    rfl
  · rw [hacted.cells, hreceived]
    exact h.held
  · rw [deal, enqueue_of_cons hw]
    simp

theorem enqueue {b : Bytes} {others : List (Bytes × Nat)}
    (hacted : s.Acted i calls (.call (.enqueue b)) others s') : s'.Sound := by
  cases hw : s.feed.waiters with
  | nil => exact h.enqueue_kept hw hacted
  | cons w ws => exact h.enqueue_handed hw hacted

/-- No buffer is ahead of the requests, and this one waits. -/
theorem dequeue_waits {waiting : List κ} {others : List (Bytes × Nat)} (hb : s.feed.buffers = [])
    (hacted : s.Acted i calls (.call (.dequeue waiting)) others s') : s'.Sound := by
  have hle : s.enqueued.length ≤ s.requested := by
    have hlength := h.length_buffers
    rw [hb] at hlength
    exact Nat.le_of_sub_eq_zero hlength.symm
  have hbegun := due?_of_mem_map_await s.cells.size waiting
  have hdeal : s.deal calls (.call (.dequeue waiting)) =
      { feed := ⟨[], s.feed.waiters ++ [s.cells.size]⟩
        cells := s.cells.add none
        begun := waiting.map (.call <| .await s.cells.size ·)
        notes := [.requested] } := by
    rw [deal, dequeue_of_nil hb]
    rfl
  have henqueued : s'.enqueued = s.enqueued := by
    rw [hacted.enqueued, hdeal]
    exact List.append_nil _
  have hrequested : s'.requested = s.requested + 1 := by
    rw [hacted.requested, hdeal]
    rfl
  have hreceived : s'.received = s.received := by
    rw [hacted.received, hdeal]
    exact List.append_nil _
  have hdue : s'.due.Perm s.due := by
    refine hacted.due'.trans (.trans (.of_eq ?_) hacted.due.symm)
    rw [hdeal]
    exact congrArg (· ++ others) (List.filterMap_eq_nil_iff.2 hbegun)
  refine ⟨?_, ?_, ?_, ?_, fun k r => ?_, hacted.prompt h fun q hq => ?_⟩
  · rw [hreceived, henqueued, hrequested, List.take_of_length_le (Nat.le_succ_of_le hle),
      ← List.take_of_length_le hle]
    exact (hdue.append_left _).trans h.matched
  · rw [hacted.feed, hdeal, henqueued, hrequested, List.drop_eq_nil_of_le (Nat.le_succ_of_le hle)]
  · rw [hacted.feed, hdeal, henqueued, hrequested, h.waiters, h.size, Nat.succ_sub hle,
      List.range'_1_concat, Nat.add_sub_cancel' hle]
  · rw [hacted.cells, hdeal, hrequested, ← h.size]
    exact Cells.size_add ..
  · rw [hacted.cells, hdeal, hreceived, ← h.held]
    exact Iff.of_eq (congrArg (· = some r) (Cells.result?_fresh s.cells k))
  · rw [hdeal] at hq
    exact hbegun q (List.mem_of_mem_tail hq)

/-- The oldest buffer of the feed has the number of the request. -/
theorem dequeue_takes {waiting : List κ} {b : Bytes} {bs : List Bytes}
    {others : List (Bytes × Nat)} (hb : s.feed.buffers = b :: bs)
    (hacted : s.Acted i calls (.call (.dequeue waiting)) others s') : s'.Sound := by
  have hlt : s.requested < s.enqueued.length := by
    have hlength := h.length_buffers
    rw [hb, List.length_cons] at hlength
    omega
  obtain ⟨rfl, rfl⟩ : b = s.enqueued[s.requested] ∧ bs = s.enqueued.drop (s.requested + 1) := by
    have hbuffers := h.buffers
    rw [hb, List.drop_eq_getElem_cons hlt] at hbuffers
    exact List.cons_eq_cons.1 hbuffers
  have hbegun := due?_of_mem_map_await s.cells.size waiting
  have hdeal : s.deal calls (.call (.dequeue waiting)) =
      { feed := ⟨s.enqueued.drop (s.requested + 1), s.feed.waiters⟩
        cells := s.cells.add (some (.ok s.enqueued[s.requested]))
        begun := waiting.map (.call <| .await s.cells.size ·)
        notes := [.requested, .received s.cells.size s.enqueued[s.requested]] } := by
    rw [deal, dequeue_of_cons hb]
    rfl
  have henqueued : s'.enqueued = s.enqueued := by
    rw [hacted.enqueued, hdeal]
    exact List.append_nil _
  have hrequested : s'.requested = s.requested + 1 := by
    rw [hacted.requested, hdeal]
    rfl
  have hreceived : s'.received = s.received ++ [(s.enqueued[s.requested], s.cells.size)] := by
    rw [hacted.received, hdeal]
    rfl
  have hdue : s'.due.Perm s.due := by
    refine hacted.due'.trans (.trans (.of_eq ?_) hacted.due.symm)
    rw [hdeal]
    exact congrArg (· ++ others) (List.filterMap_eq_nil_iff.2 hbegun)
  have hnumbered : (s.enqueued.take (s.requested + 1)).zipIdx =
      (s.enqueued.take s.requested).zipIdx ++ [(s.enqueued[s.requested], s.cells.size)] := by
    rw [List.take_succ_eq_append_getElem hlt, List.zipIdx_append, Nat.zero_add,
      List.length_take_of_le hlt.le, h.size]
    rfl
  refine ⟨?_, ?_, ?_, ?_, ?_, hacted.prompt h fun q hq => ?_⟩
  · rw [hreceived, henqueued, hrequested, hnumbered, List.append_assoc]
    refine (hdue.append_left _).append_left _ |>.trans ?_
    exact List.perm_middle.trans ((h.matched.cons _).trans (List.perm_append_singleton ..).symm)
  · rw [hacted.feed, hdeal, henqueued, hrequested]
  · rw [hacted.feed, hdeal, henqueued, hrequested, h.waiters, Nat.sub_eq_zero_of_le hlt.le,
      Nat.sub_eq_zero_of_le hlt]
  · rw [hacted.cells, hdeal, hrequested]
    exact (Cells.size_add ..).trans (congrArg (· + 1) h.size)
  · refine h.held_concat (by simp [Cells.result?]) hreceived fun d => ?_
    rw [hacted.cells, hdeal]
    exact Cells.result?_add ..
  · rw [hdeal] at hq
    exact hbegun q (List.mem_of_mem_tail hq)

theorem dequeue {waiting : List κ} {others : List (Bytes × Nat)}
    (hacted : s.Acted i calls (.call (.dequeue waiting)) others s') : s'.Sound := by
  cases hb : s.feed.buffers with
  | nil => exact h.dequeue_waits hb hacted
  | cons b bs => exact h.dequeue_takes hb hacted

/-- The request that is handed its buffer has waited for it. -/
theorem hand {b : Bytes} {k : Nat} {others : List (Bytes × Nat)}
    (hacted : s.Acted i calls (.hand k b) others s') : s'.Sound := by
  have hbegun : ∀ q ∈ (s.deal calls (.hand k b)).begun, q.due? = none := fun q hq => by
    obtain ⟨w, -, rfl⟩ := List.mem_map.1 hq
    rfl
  have henqueued : s'.enqueued = s.enqueued := hacted.enqueued.trans (List.append_nil _)
  have hrequested : s'.requested = s.requested := hacted.requested
  have hreceived : s'.received = s.received ++ [(b, k)] := hacted.received
  have hdue : s.due.Perm ((b, k) :: others) := hacted.due
  have hdue' : s'.due.Perm others := by
    refine hacted.due'.trans (.of_eq ?_)
    rw [List.filterMap_eq_nil_iff.2 hbegun, List.nil_append]
  have hpending : s.cells.IsPending k := h.isPending_of_due (hdue.mem_iff.2 List.mem_cons_self)
  refine ⟨?_, ?_, ?_, ?_, ?_, hacted.prompt h fun q hq => hbegun q (List.mem_of_mem_tail hq)⟩
  · rw [henqueued, hrequested, hreceived, List.append_assoc]
    exact (((hdue'.cons _).trans hdue.symm).append_left _).trans h.matched
  · rw [hacted.feed, henqueued, hrequested, ← h.buffers]
    rfl
  · rw [hacted.feed, henqueued, hrequested, ← h.waiters]
    rfl
  · rw [hacted.cells, hrequested, ← h.size]
    exact Cells.size_settle ..
  · refine h.held_concat hpending.2 hreceived fun d => ?_
    rw [hacted.cells]
    exact Cells.result?_settle hpending ..

theorem await {k : Nat} {w : κ} {others : List (Bytes × Nat)}
    (hacted : s.Acted i calls (.call (.await k w)) others s') : s'.Sound := by
  cases hk : s.cells.isSettled k with
  | true =>
    have hdeal : s.deal calls (.call (.await k w)) =
        { feed := s.feed, cells := s.cells, begun := [.resume w] } := by
      rw [deal, if_pos hk]
    refine h.same hacted ?_ ?_ ?_ ?_ rfl ?_ <;> simp [hdeal, Piece.due?]
  | false =>
    have hdeal : s.deal calls (.call (.await k w)) =
        { feed := s.feed, cells := s.cells.register k w } := by
      rw [deal, if_neg (by simp [hk])]
    refine h.same hacted ?_ ?_ ?_ ?_ rfl ?_ <;> simp [hdeal]

theorem act (hs : s.act? i calls = some s') : s'.Sound := by
  obtain ⟨p, others, hacted⟩ := acted hs
  cases p with
  | call c =>
    cases c with
    | enqueue b => exact h.enqueue hacted
    | dequeue waiting => exact h.dequeue hacted
    | await k w => exact h.await hacted
  | hand k b => exact h.hand hacted
  | resume w => exact h.same hacted rfl rfl (fun _ => rfl) rfl rfl (due?_of_mem_map_call calls)

end Sound

theorem Reachable.sound (hs : s.Reachable) : s.Sound := by
  induction hs with
  | refl => exact .init
  | tail _ hstep ih =>
    cases hstep with
    | act h => exact ih.act h
    | enter calls => exact ih.enter calls

/-- Who has something to hand out does it next. -/
theorem Sound.exists_agenda_of_due (h : s.Sound) {b : Bytes} {k : Nat} (hb : (b, k) ∈ s.due) :
    ∃ i rest, s.agenda i = .hand k b :: rest := by
  obtain ⟨p, hp, hdue⟩ := List.mem_filterMap.1 hb
  obtain ⟨pieces, hpieces, hp⟩ := List.mem_flatten.1 hp
  obtain ⟨i, hi⟩ := List.getElem?_of_mem hpieces
  have hagenda : s.agenda i = pieces := by rw [agenda, hi, Option.getD_some]
  cases pieces with
  | nil => cases hp
  | cons q rest =>
    rcases List.mem_cons.1 hp with rfl | hp
    · cases p with
      | call | resume => cases hdue
      | hand k' b' =>
        cases hdue
        exact ⟨i, rest, hagenda⟩
    · have := h.prompt i p (by rwa [hagenda])
      rw [hdue] at this
      cases this

theorem Sound.zipIdx_enqueued (h : s.Sound) : s.enqueued.zipIdx =
    (s.enqueued.take s.requested).zipIdx ++ s.feed.buffers.zipIdx s.requested := by
  rw [h.buffers]
  rcases Nat.le_total s.requested s.enqueued.length with hle | hle
  · conv_lhs => rw [← List.take_append_drop s.requested s.enqueued]
    rw [List.zipIdx_append, List.length_take_of_le hle, Nat.zero_add]
  · rw [List.take_of_length_le hle, List.drop_eq_nil_of_le hle, List.zipIdx_nil, List.append_nil]

theorem Sound.exclusive (h : s.Sound) : s.feed.Exclusive := by
  rcases Nat.le_total s.requested s.enqueued.length with hle | hle
  · exact .inr (by rw [h.waiters, Nat.sub_eq_zero_of_le hle, List.range'_zero])
  · exact .inl (by rw [h.buffers, List.drop_eq_nil_of_le hle])

theorem Idle.due (hs : s.Idle) : s.due = [] := by
  rw [Traffic.due, List.flatten_eq_nil_iff.2 fun l hl => ?_, List.filterMap_nil]
  obtain ⟨i, hi⟩ := List.getElem?_of_mem hl
  simpa [agenda, hi] using hs i

theorem Idle.result? (hs : s.Idle) (h : s.Sound) {k : Nat} (hk : k < s.requested) :
    s.cells.result? k = s.enqueued[k]?.map .ok := by
  have hreceived : ∀ b, (b, k) ∈ s.received ↔ s.enqueued[k]? = some b := fun b => by
    have hmatched := h.matched
    rw [hs.due, List.append_nil] at hmatched
    rw [hmatched.mem_iff, List.mem_zipIdx_iff_getElem?, List.getElem?_take_of_lt hk]
  refine Option.ext fun r => ?_
  rw [h.held, Option.map_eq_some_iff]
  simp only [hreceived, eq_comm]

/-- The matching is first in, first out. Every buffer is in one place, under its number: it has got to
the request of this number, or it is on its way there, or it is in the feed. A request holds the buffer
of its number or nothing; what is on its way gets there at the next turn of its thread; and when nobody
has anything left to do, every request for which there is a buffer holds it. -/
theorem matched_in_order (hs : s.Reachable) :
    (s.received ++ s.due ++ s.feed.buffers.zipIdx s.requested).Perm s.enqueued.zipIdx ∧
    (∀ k r, s.cells.result? k = some r ↔ ∃ b, (b, k) ∈ s.received ∧ r = .ok b) ∧
    (∀ k b, (b, k) ∈ s.received → k < s.requested ∧ s.enqueued[k]? = some b) ∧
    (∀ k b, (b, k) ∈ s.due → ∃ i, ∀ calls, ∃ s', s.act? i calls = some s' ∧
      s'.cells.result? k = some (.ok b)) ∧
    (s.Idle → ∀ k < s.requested, s.cells.result? k = s.enqueued[k]?.map .ok) ∧
    s.feed.waiters = List.range' s.enqueued.length (s.requested - s.enqueued.length) ∧
    s.feed.Exclusive ∧
    (s.feed.buffers.length : Int) - s.feed.waiters.length = s.enqueued.length - s.requested := by
  have h := hs.sound
  refine ⟨?_, h.held, fun k b hb => (h.getElem?_of_mem (List.mem_append_left _ hb)).symm,
    fun k b hb => ?_, fun hidle k hk => hidle.result? h hk, h.waiters, h.exclusive, ?_⟩
  · rw [h.zipIdx_enqueued]
    exact h.matched.append_right _
  · obtain ⟨i, rest, hagenda⟩ := h.exists_agenda_of_due hb
    refine ⟨i, fun calls => ⟨_, by rw [act?, hagenda], ?_⟩⟩
    exact Cells.result?_settle_self (h.isPending_of_due hb).1 (h.isPending_of_due hb).2 _
  · rw [h.length_buffers, h.length_waiters]
    omega

def reentrant : Traffic Unit :=
  let s := (({} : Traffic Unit).enter [.dequeue [()], .dequeue []]).enter [.enqueue [1], .enqueue [3]]
  s.after [(0, []), (0, []), (0, []), (1, []), (1, []), (1, [.enqueue [2], .dequeue []]), (1, [])]

theorem matched_in_order_reentrant : reentrant.Reachable ∧
    reentrant.received = [([1], 0)] ∧ reentrant.due = [([2], 1)] ∧
    ∃ i, ∀ calls, ∃ s', reentrant.act? i calls = some s' ∧ s'.cells.result? 1 = some (.ok [2]) := by
  have hs : reentrant.Reachable :=
    Reachable.after (.tail (.tail .refl (.enter _)) (.enter _)) _
  exact ⟨hs, rfl, rfl, (matched_in_order hs).2.2.2.1 1 [2] List.mem_cons_self⟩

end OpFlow.Feed.Traffic
