import OpFlow.Proofs.Frame.Occasions

/-!
What comes out of the outfeed of a host. Buffers are put out one after the other, and each time that
the host takes one it gets the next of them, at once or when it is put out. So what has been put out
so far fixes what the host has and what it waits for.
-/
namespace OpFlow

open Machine (CallKey Effect)

namespace HostState

/-- The host when a buffer has been put out. -/
def sending (s : HostState) (bytes : Bytes) : HostState :=
  let (outfeed, taker) := s.feeds.outfeed.enqueue bytes
  { s with
    feeds := { s.feeds with outfeed }
    outfed := match taker with
      | some k => s.outfed.setIfInBounds k (some bytes)
      | none => s.outfed }

def fetching (s : HostState) : HostState :=
  let (outfeed, got) := s.feeds.outfeed.dequeue s.outfed.size
  { s with feeds := { s.feeds with outfeed }, outfed := s.outfed.push got }

/-- These buffers have been put out so far: the host has got one each time that it asked for one, in
their order, as far as they go. -/
structure Sent (s : HostState) (sent : List Bytes) : Prop where
  taken : ∀ k < s.outfed.size, s.outfed[k]? = some sent[k]?
  queued : s.feeds.outfeed.buffers = sent.drop s.outfed.size
  waiting : s.feeds.outfeed.waiters = List.range' sent.length (s.outfed.size - sent.length)

variable {s : HostState} {sent : List Bytes}

theorem infeed_sending (s : HostState) (bytes : Bytes) :
    (s.sending bytes).feeds.infeed = s.feeds.infeed := by
  unfold sending
  split
  rfl

theorem infeed_fetching (s : HostState) : s.fetching.feeds.infeed = s.feeds.infeed := by
  unfold fetching
  split
  rfl

theorem Sent.sending (h : s.Sent sent) (bytes : Bytes) :
    (s.sending bytes).Sent (sent ++ [bytes]) := by
  obtain ⟨htaken, hqueued, hwaiting⟩ := h
  by_cases hsize : s.outfed.size ≤ sent.length
  · -- the host has asked for none that was not there
    have hnone : s.feeds.outfeed.waiters = [] := by
      rw [hwaiting, Nat.sub_eq_zero_of_le hsize, List.range'_zero]
    have henqueue : s.feeds.outfeed.enqueue bytes =
        (⟨sent.drop s.outfed.size ++ [bytes], []⟩, none) := by
      rw [Feed.enqueue, hnone, ← hqueued]
    have heq : s.sending bytes = { s with
        feeds := { s.feeds with outfeed := ⟨sent.drop s.outfed.size ++ [bytes], []⟩ } } := by
      rw [HostState.sending, henqueue]
    rw [heq]
    refine ⟨fun k hk => ?_, ?_, ?_⟩
    · rw [List.getElem?_append_left (Nat.lt_of_lt_of_le hk hsize)]
      exact htaken k hk
    · exact (List.drop_append_of_le_length hsize).symm
    · have hzero : s.outfed.size - (sent ++ [bytes]).length = 0 := by
        rw [List.length_append]
        omega
      rw [hzero, List.range'_zero]
  · have hlt : sent.length < s.outfed.size := Nat.lt_of_not_le hsize
    have hcons : s.feeds.outfeed.waiters =
        sent.length :: List.range' (sent.length + 1) (s.outfed.size - (sent.length + 1)) := by
      rw [hwaiting, show s.outfed.size - sent.length = s.outfed.size - (sent.length + 1) + 1 by omega,
        List.range'_succ]
    have henqueue : s.feeds.outfeed.enqueue bytes =
        (⟨sent.drop s.outfed.size, List.range' (sent.length + 1) (s.outfed.size - (sent.length + 1))⟩,
          some sent.length) := by
      rw [Feed.enqueue, hcons, ← hqueued]
    have heq : s.sending bytes = { s with
        feeds := { s.feeds with outfeed := ⟨sent.drop s.outfed.size,
          List.range' (sent.length + 1) (s.outfed.size - (sent.length + 1))⟩ }
        outfed := s.outfed.setIfInBounds sent.length (some bytes) } := by
      rw [HostState.sending, henqueue]
    rw [heq]
    refine ⟨fun k hk => ?_, ?_, ?_⟩
    · dsimp only at hk ⊢
      rw [Array.size_setIfInBounds] at hk
      rw [Array.getElem?_setIfInBounds]
      by_cases hkey : sent.length = k
      · subst hkey
        simp [hlt]
      · rw [if_neg hkey, htaken k hk]
        by_cases hbefore : k < sent.length
        · rw [List.getElem?_append_left hbefore]
        · rw [List.getElem?_eq_none (by omega), List.getElem?_eq_none]
          rw [List.length_append, List.length_singleton]
          omega
    · dsimp only
      rw [Array.size_setIfInBounds, List.drop_eq_nil_of_le (by omega), List.drop_eq_nil_of_le]
      rw [List.length_append, List.length_singleton]
      omega
    · dsimp only
      rw [Array.size_setIfInBounds, List.length_append, List.length_singleton]

theorem Sent.fetching (h : s.Sent sent) : s.fetching.Sent sent := by
  obtain ⟨htaken, hqueued, hwaiting⟩ := h
  -- the new request gets the next of the buffers, if there is one
  have hnext : ∀ k < (s.outfed.push sent[s.outfed.size]?).size,
      (s.outfed.push sent[s.outfed.size]?)[k]? = some sent[k]? := fun k hk => by
    rw [Array.size_push] at hk
    rw [Array.getElem?_push]
    split
    · next heq => rw [heq]
    · exact htaken k (by omega)
  by_cases hsize : s.outfed.size < sent.length
  · have hnone : s.feeds.outfeed.waiters = [] := by
      rw [hwaiting, Nat.sub_eq_zero_of_le hsize.le, List.range'_zero]
    have hdequeue : s.feeds.outfeed.dequeue s.outfed.size =
        (⟨sent.drop (s.outfed.size + 1), []⟩, sent[s.outfed.size]?) := by
      rw [Feed.dequeue, hqueued, List.drop_eq_getElem_cons hsize, hnone,
        List.getElem?_eq_getElem hsize]
    have heq : s.fetching = { s with
        feeds := { s.feeds with outfeed := ⟨sent.drop (s.outfed.size + 1), []⟩ }
        outfed := s.outfed.push sent[s.outfed.size]? } := by
      rw [HostState.fetching, hdequeue]
    rw [heq]
    refine ⟨hnext, ?_, ?_⟩
    · dsimp only
      rw [Array.size_push]
    · dsimp only
      rw [Array.size_push, Nat.sub_eq_zero_of_le hsize, List.range'_zero]
  · have hle : sent.length ≤ s.outfed.size := Nat.le_of_not_lt hsize
    have hdequeue : s.feeds.outfeed.dequeue s.outfed.size =
        (⟨[], s.feeds.outfeed.waiters ++ [s.outfed.size]⟩, sent[s.outfed.size]?) := by
      rw [Feed.dequeue, hqueued, List.drop_eq_nil_of_le hle, List.getElem?_eq_none hle]
    have heq : s.fetching = { s with
        feeds := { s.feeds with outfeed := ⟨[], s.feeds.outfeed.waiters ++ [s.outfed.size]⟩ }
        outfed := s.outfed.push sent[s.outfed.size]? } := by
      rw [HostState.fetching, hdequeue]
    rw [heq]
    refine ⟨hnext, ?_, ?_⟩
    · dsimp only
      rw [Array.size_push, List.drop_eq_nil_of_le (by omega)]
    · dsimp only
      rw [Array.size_push, hwaiting,
        show s.outfed.size + 1 - sent.length = s.outfed.size - sent.length + 1 by omega,
        List.range'_1_concat, Nat.add_sub_cancel' hle]

theorem sent_nil (hfeed : s.feeds.outfeed = {}) (houtfed : s.outfed = #[]) : s.Sent [] :=
  ⟨by simp [houtfed], by simp [hfeed, houtfed], by simp [hfeed, houtfed]⟩

end HostState

namespace Platform

variable {p : Platform} {h : Nat} {c : CallKey} {sources : List Slice}

theorem modifyHost_modifyHost (p : Platform) (h : Nat) (f g : HostState → HostState) :
    (p.modifyHost h f).modifyHost h g = p.modifyHost h fun s => g (f s) := by
  refine ext_hosts (p := (p.modifyHost h f).modifyHost h g) (q := p.modifyHost h fun s => g (f s))
    fun k => ?_
  simp only [host?_modifyHost]
  split
  · cases p.host? k <;> rfl
  · rfl

theorem foldl_putOut (p : Platform) (h : Nat) (buffers : List Bytes) :
    buffers.foldl (fun p b => p.putOut h b) p =
      p.modifyHost h fun s => buffers.foldl HostState.sending s := by
  induction buffers generalizing p with
  | nil => exact (ext_hosts (p := p.modifyHost h id) (q := p) fun k => by
      rw [host?_modifyHost]
      split
      · cases p.host? k <;> rfl
      · rfl).symm
  | cons bytes buffers ih =>
    rw [List.foldl_cons, ih]
    exact modifyHost_modifyHost p h (fun s => s.sending bytes) _

theorem launchOutfeed_of_ok (hctx : (p.contextOf c.run.host).requireFeeds = .ok ())
    {buffers : List Bytes} (hread : sources.mapM (p.arenaOf c.run.host).read = .ok buffers) :
    p.launchOutfeed c sources =
      (p.modifyHost c.run.host fun s => buffers.foldl HostState.sending s,
        .ok [.settle c (.ok ())]) := by
  rw [launchOutfeed, hctx]
  change putAll c (sources.mapM (p.arenaOf c.run.host).read) p = _
  rw [hread, ← foldl_putOut]
  rfl

theorem launchOutfeed_of_error (hctx : (p.contextOf c.run.host).requireFeeds = .ok ()) {e : Error}
    (hread : sources.mapM (p.arenaOf c.run.host).read = .error e) :
    p.launchOutfeed c sources = (p, .ok [.settle c (.error e)]) := by
  rw [launchOutfeed, hctx]
  change putAll c (sources.mapM (p.arenaOf c.run.host).read) p = _
  rw [hread]
  rfl

end Platform

/-- Slices cannot all be read if one of them cannot. -/
theorem exists_error_of_mapM_read {a : Arena} {sources : List Slice} {source : Slice}
    (hmem : source ∈ sources) {e : Error} (h : a.read source = .error e) :
    ∃ e', sources.mapM a.read = .error e' := by
  induction sources with
  | nil => cases hmem
  | cons s sources ih =>
    rw [List.mapM_cons]
    cases hs : a.read s with
    | error e' => exact ⟨e', rfl⟩
    | ok bytes =>
      rcases List.mem_cons.1 hmem with rfl | hmem
      · rw [h] at hs
        cases hs
      · obtain ⟨e', he'⟩ := ih hmem
        exact ⟨e', by rw [he']; rfl⟩

/-- What is read of slices are the bytes of each, in their order. -/
theorem forall₂_of_mapM_read {a : Arena} {sources : List Slice} {buffers : List Bytes}
    (h : sources.mapM a.read = .ok buffers) :
    List.Forall₂ (fun s b => a.read s = .ok b) sources buffers := by
  induction sources generalizing buffers with
  | nil =>
    cases h
    exact .nil
  | cons s sources ih =>
    rw [List.mapM_cons] at h
    cases hs : a.read s with
    | error e =>
      rw [hs] at h
      cases h
    | ok bytes =>
      cases hm : sources.mapM a.read with
      | error e =>
        rw [hs, hm] at h
        cases h
      | ok more =>
        rw [hs, hm] at h
        cases h
        exact .cons hs (ih hm)

end OpFlow
