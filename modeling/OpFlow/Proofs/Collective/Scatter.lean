import OpFlow.Proofs.Collective.AllReduce

/-!
Reduce-scatters. The shares of all participants, in the order of their ranks, make up the result of
the all-reduce. Contributions of one length can be scattered exactly if that length divides into one
whole number of elements for each participant. The share is also computed with machine words, where
a division by zero, an overflow or a range outside the string would panic.
-/
namespace OpFlow

namespace Exchange

variable {t : ElementType} {n rank : Nat} {b : Bytes}

theorem cut_eq {start stop : Nat} (h : start ≤ stop) (hstop : stop ≤ b.length) :
    cut b start stop = .ok ((b.drop start).take (stop - start)) := by
  rw [cut, if_neg (Nat.not_lt_of_le h), if_neg (Nat.not_lt_of_le hstop)]

theorem shard_size_mul (t : ElementType) (n : Nat) (b : Bytes) :
    b.length / t.width / n * t.width * n = b.length ↔ n * t.width ∣ b.length := by
  rw [Nat.div_div_eq_div_mul, Nat.mul_assoc, Nat.mul_comm n]
  exact ⟨fun h => Dvd.intro_left _ h, Nat.div_mul_cancel⟩

theorem shard_of_dvd (h : n * t.width ∣ b.length) (rank : Nat) :
    shard t n rank b = .ok ((b.drop (rank * (b.length / t.width / n * t.width))).take
      (b.length / t.width / n * t.width)) :=
  if_neg (not_not_intro ((shard_size_mul t n b).2 h))

theorem shard_of_not_dvd (h : ¬ n * t.width ∣ b.length) (rank : Nat) :
    shard t n rank b = .error (.invalidArgument (toString b.length ++ " bytes of " ++ t.describe ++
      " cannot be scattered evenly over " ++ toString n ++ " ranks")) :=
  if_pos fun heven => h ((shard_size_mul t n b).1 heven)

theorem shard_eq_block (h : n * t.width ∣ b.length) (hrank : rank < n) :
    ∃ s, shard t n rank b = .ok s ∧ (b.blocks (b.length / n) n)[rank]? = some s := by
  have hsize : b.length / n = b.length / t.width / n * t.width :=
    Nat.div_eq_of_eq_mul_left (Nat.zero_lt_of_lt hrank) ((shard_size_mul t n b).2 h).symm
  exact ⟨_, shard_of_dvd h rank, hsize ▸ Bytes.getElem?_blocks hrank⟩

/-- The shares of all ranks are the blocks of the string, one for each. -/
theorem shares_eq_blocks {shares : List Bytes} (hcount : shares.length = n) (hpos : 0 < n)
    (h : ∀ rank s, shares[rank]? = some s → shard t n rank b = .ok s) :
    b.length = n * (b.length / n) ∧ shares = b.blocks (b.length / n) n := by
  have hdvd : n * t.width ∣ b.length := by
    by_contra hnot
    have hfirst := h 0 shares[0] (List.getElem?_eq_getElem (hcount ▸ hpos))
    rw [shard_of_not_dvd hnot] at hfirst
    cases hfirst
  refine ⟨(Nat.mul_div_cancel' ((Nat.dvd_mul_right _ _).trans hdvd)).symm,
    List.ext_getElem? fun rank => ?_⟩
  by_cases hrank : rank < n
  · obtain ⟨s, hs, hblock⟩ := shard_eq_block hdvd hrank
    have hget := List.getElem?_eq_getElem (hcount.symm ▸ hrank : rank < shares.length)
    rw [h rank _ hget] at hs
    rw [hget, hblock, Except.ok.inj hs]
  · rw [List.getElem?_eq_none (by omega), List.getElem?_eq_none (by simpa using hrank)]

/-- Words compute the share, and nothing panics. -/
theorem shardOnWords_eq (hn : n < wordSize) (hb : b.length < wordSize) (hrank : rank < n) :
    shardOnWords t n rank b = (shard t n rank b).mapError .error := by
  have hpos : 0 < n := Nat.zero_lt_of_lt hrank
  obtain ⟨elements, helements⟩ : ∃ e, b.length / t.width / n = e := ⟨_, rfl⟩
  -- no product is larger than the length
  have hall : elements * n * t.width ≤ b.length := helements ▸
    Nat.le_trans (Nat.mul_le_mul_right _ (Nat.div_mul_le_self _ _)) (Nat.div_mul_le_self _ _)
  have hcount : elements * n ≤ b.length :=
    Nat.le_trans (Nat.le_mul_of_pos_right _ t.width_pos) hall
  have hshares : n * (elements * t.width) ≤ b.length := by
    rwa [Nat.mul_comm, Nat.mul_right_comm]
  have hsize : elements * t.width ≤ b.length :=
    Nat.le_trans (Nat.le_mul_of_pos_left _ hpos) hshares
  have hstop : (rank + 1) * (elements * t.width) ≤ b.length :=
    Nat.le_trans (Nat.mul_le_mul_right _ hrank) hshares
  have hstart : rank * (elements * t.width) ≤ (rank + 1) * (elements * t.width) :=
    Nat.mul_le_mul_right _ (Nat.le_succ rank)
  have heven : elements * n * t.width = b.length ↔ n * t.width ∣ b.length := by
    rw [← shard_size_mul t n b, helements, Nat.mul_right_comm]
  have hnext : rank + 1 < wordSize := Nat.lt_of_le_of_lt (Nat.succ_le_of_lt hrank) hn
  have hword : ∀ {a : Nat}, a ≤ b.length → a < wordSize := fun h => Nat.lt_of_le_of_lt h hb
  simp only [shardOnWords, bind, Except.bind, Word.div_eq t.width_pos, Word.div_eq hpos, helements,
    Word.mul_eq (hword hcount), Word.mul_eq (hword hall), Word.mul_eq (hword hsize),
    Word.mul_eq (hword (Nat.le_trans hstart hstop)), Word.mul_eq (hword hstop),
    Word.add_eq hnext, cut_eq hstart hstop]
  by_cases hdvd : n * t.width ∣ b.length
  · rw [shard_of_dvd hdvd, helements, if_neg (not_not_intro (heven.2 hdvd)), Nat.succ_mul,
      Nat.add_sub_cancel_left]
    rfl
  · rw [shard_of_not_dvd hdvd, if_pos fun h => hdvd (heven.1 h)]
    rfl

end Exchange

namespace Meetings

open Reduction Exchange

variable {κ : Type} {t : ElementType} {k : ReductionKind} {timeout timeout' : Nat}
  {key key' : RendezvousKey} {inputs : List Bytes} {moves moves' : List (Move κ)}

theorem Round.outcome_reduceScatter
    (h : Round timeout (.reduceScatter k t) key (oneBlockEach inputs) moves) {rank : Nat}
    (hrank : rank < inputs.length) :
    ((start timeout).run moves).outcome? (.reduceScatter k t) key rank =
      some (reduceAll t k inputs >>= fun whole => some <$> shard t inputs.length rank whole) := by
  rw [h.outcome_eq (fun hkind => nomatch hkind) (by simpa using hrank), Exchange.result,
    flatten_oneBlockEach, length_oneBlockEach]

/-- Who gets a share gets that of the reduction. -/
theorem Round.shard_of_outcome
    (h : Round timeout (.reduceScatter k t) key (oneBlockEach inputs) moves) {rank : Nat}
    (hrank : rank < inputs.length) {s : Bytes}
    (hs : ((start timeout).run moves).outcome? (.reduceScatter k t) key rank =
      some (.ok (some s))) :
    ∃ whole, reduceAll t k inputs = .ok whole ∧ shard t inputs.length rank whole = .ok s := by
  rw [h.outcome_reduceScatter hrank] at hs
  cases hreduce : reduceAll t k inputs with
  | error e => rw [hreduce] at hs; cases hs
  | ok whole =>
    rw [hreduce] at hs
    cases hshard : shard t inputs.length rank whole with
    | error e => simp [hshard, bind, Except.bind, Functor.map, Except.map] at hs
    | ok s' =>
      obtain rfl : s' = s := by simpa [hshard, bind, Except.bind, Functor.map, Except.map] using hs
      exact ⟨whole, rfl, hshard⟩

/-- Contributions of one length that divides evenly can be reduced, to a string of that length; if
they cannot be reduced, their length does not divide evenly. -/
theorem reduceAll_cases (k : ReductionKind) (hne : inputs ≠ []) {len : Nat}
    (hlen : ∀ b ∈ inputs, b.length = len) :
    (∃ whole, reduceAll t k inputs = .ok whole ∧ whole.length = len) ∨
      ¬ inputs.length * t.width ∣ len ∧
        ∃ e, reduceAll t k inputs = .error e ∧ e.kind = .invalidArgument := by
  cases hreduce : reduceAll t k inputs with
  | ok whole =>
    obtain ⟨first, rest, rfl⟩ := List.exists_cons_of_ne_nil hne
    exact .inl ⟨whole, rfl, (length_of_foldlM hreduce).2.2.trans (hlen first List.mem_cons_self)⟩
  | error e =>
    refine .inr ⟨fun hdvd => ?_, e, rfl, kind_of_reduceAll hreduce⟩
    obtain ⟨first, rest, rfl⟩ := List.exists_cons_of_ne_nil hne
    obtain ⟨whole, hwhole, -⟩ := reduceAll_of_length k ((Nat.dvd_mul_left _ _).trans hdvd) hlen
    rw [hreduce] at hwhole
    cases hwhole

/-- A reduce-scatter is the sharding of an all-reduce. When all participants get their shares, these
make up, in the order of the ranks, what the all-reduce of the same contributions gives, and all
have the same length. Contributions of one length are scattered exactly if that length is a multiple
of the elements of all participants, and otherwise everybody gets an error. With machine words too
every share is computed without a panic. A later round of the same contributions, whatever the order
of its calls, gives the same shares. -/
theorem reduceScatter_shards (hne : inputs ≠ [])
    (h : Round timeout (.reduceScatter k t) key (oneBlockEach inputs) moves)
    (h' : Round timeout' (.allReduce k t) key' (oneBlockEach inputs) moves') :
    let n := inputs.length
    let share := ((start timeout).run moves).outcome? (.reduceScatter k t) key
    let reduced := ((start timeout').run moves').outcome? (.allReduce k t) key'
    (∀ shares : List Bytes, shares.length = n →
      (∀ rank s, shares[rank]? = some s → share rank = some (.ok (some s))) →
      (∀ rank < n, reduced rank = some (.ok (some shares.flatten))) ∧
        ∀ s ∈ shares, s.length = shares.flatten.length / n) ∧
    (∀ len, (∀ b ∈ inputs, b.length = len) → ∀ rank < n,
      (n * t.width ∣ len → ∃ s, share rank = some (.ok (some s))) ∧
      (¬ n * t.width ∣ len → ∃ e, share rank = some (.error e) ∧ e.kind = .invalidArgument)) ∧
    (n < wordSize → ∀ whole, reduceAll t k inputs = .ok whole → whole.length < wordSize →
      ∀ rank < n, shardOnWords t n rank whole = (shard t n rank whole).mapError .error) ∧
    ∀ (timeout' : Nat) (key' : RendezvousKey) (moves' : List (Move κ)),
      Round timeout' (.reduceScatter k t) key' (oneBlockEach inputs) moves' → ∀ rank < n,
        ((start timeout').run moves').outcome? (.reduceScatter k t) key' rank = share rank := by
  have hpos : 0 < inputs.length := List.length_pos_iff.2 hne
  refine ⟨fun shares hcount hshares => ?_, fun len hlen rank hrank => ?_,
    fun hn whole _ hwhole rank hrank => shardOnWords_eq hn hwhole hrank,
    fun timeout' key' moves' h' rank hrank => ?_⟩
  · have hvalue := fun rank s (hs : shares[rank]? = some s) =>
      h.shard_of_outcome (hcount ▸ (List.getElem?_eq_some_iff.1 hs).1) (hshares rank s hs)
    obtain ⟨whole, hwhole, -⟩ := hvalue 0 shares[0] (List.getElem?_eq_getElem (hcount ▸ hpos))
    obtain ⟨hlength, hblocks⟩ := shares_eq_blocks (t := t) (b := whole) hcount hpos
      fun rank s hs => by
        obtain ⟨whole', hwhole', hshard⟩ := hvalue rank s hs
        rwa [Except.ok.inj (hwhole.symm.trans hwhole')]
    have hflatten : shares.flatten = whole := hblocks ▸ Bytes.flatten_blocks_of_length hlength
    refine ⟨fun rank hrank => ?_, fun s hs => ?_⟩
    · rw [h'.outcome_allReduce hrank, hwhole, hflatten]
      rfl
    · rw [hflatten]
      exact Bytes.length_of_mem_blocks hlength s (hblocks ▸ hs)
  · rw [show ((start timeout).run moves).outcome? _ _ _ = _ from h.outcome_reduceScatter hrank]
    rcases reduceAll_cases (t := t) k hne hlen with ⟨whole, hwhole, rfl⟩ | ⟨hnot, e, he, hkind⟩
    · rw [hwhole]
      refine ⟨fun hdvd => ?_, fun hnot => ?_⟩
      · exact ⟨_, by simp only [bind, Except.bind, shard_of_dvd hdvd]; rfl⟩
      · exact ⟨_, by simp only [bind, Except.bind, shard_of_not_dvd hnot]; rfl, rfl⟩
    · rw [he]
      exact ⟨fun hdvd => absurd hdvd hnot, fun _ => ⟨e, rfl, hkind⟩⟩
  · rw [h'.outcome_reduceScatter hrank, h.outcome_reduceScatter hrank]

theorem reduceScatter_shards_pair :
    (∀ rank < 2, ((start 50).run (pairCalls (.allReduce .sum .u8) [1, 2] [3, 4])).outcome?
        (.allReduce .sum .u8) pairKey rank = some (.ok (some [4, 6]))) ∧
      ∃ s, ((start 50).run (pairCalls (.reduceScatter .sum .u8) [1, 2] [3, 4])).outcome?
        (.reduceScatter .sum .u8) pairKey 1 = some (.ok (some s)) := by
  obtain ⟨hshares, heven, -⟩ := reduceScatter_shards (k := .sum) (t := .u8) (by decide)
    (round_pairCalls (.reduceScatter .sum .u8) (.inr rfl) [1, 2] [3, 4])
    (round_pairCalls (.allReduce .sum .u8) (.inl rfl) [1, 2] [3, 4])
  refine ⟨(hshares [[4], [6]] rfl fun rank s hs => ?_).1, (heven 2 (by decide) 1 (by decide)).1
    (by decide)⟩
  match rank with
  | 0 => obtain rfl := Option.some.inj hs; rfl
  | 1 => obtain rfl := Option.some.inj hs; rfl
  | rank + 2 => cases hs

end Meetings

end OpFlow
