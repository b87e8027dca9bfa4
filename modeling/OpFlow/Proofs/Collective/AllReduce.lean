import OpFlow.Proofs.Collective.Round
import OpFlow.Proofs.Reduction.Integers

/-!
All-reduces. Two participants or more agree on the reduction of what they bring, whatever the order
in which they come, and none of them gets a result unless the contributions are uniform. A lone
participant gets back what it brought, unread.
-/
namespace OpFlow

namespace Meetings

open Reduction

variable {κ : Type} {t : ElementType} {k : ReductionKind} {timeout : Nat} {key : RendezvousKey}
  {inputs : List Bytes} {moves : List (Move κ)}

theorem Round.outcome_allReduce (h : Round timeout (.allReduce k t) key (oneBlockEach inputs) moves)
    {rank : Nat} (hrank : rank < inputs.length) :
    ((start timeout).run moves).outcome? (.allReduce k t) key rank =
      some (some <$> reduceAll t k inputs) := by
  rw [h.outcome_eq (fun hkind => nomatch hkind) (by simpa using hrank), Exchange.result,
    flatten_oneBlockEach]

/-- Uniform strings of integers, two of them or more, reduce place by place. -/
theorem exists_isReduced (ht : t.isFloat = false) (k : ReductionKind) (hn : 2 ≤ inputs.length)
    {len : Nat} (hw : t.width ∣ len) (hlen : ∀ b ∈ inputs, b.length = len) :
    ∃ c, reduceAll t k inputs = .ok c ∧ c.length = len ∧
      ∀ j < len / t.width, IsReduced t k (inputs.map (elementAt t j)) (elementAt t j c) := by
  obtain _ | ⟨first, _ | ⟨second, rest⟩⟩ := inputs
  · cases hn
  · simp at hn
  · obtain ⟨c, hc, hlength, helements⟩ := reduceAll_of_length k hw hlen
    refine ⟨c, hc, hlength, fun j hj => ?_⟩
    have hwidth : ∀ b ∈ (first :: second :: rest).map (elementAt t j), b.length = t.width := by
      intro b hb
      obtain ⟨input, hinput, rfl⟩ := List.mem_map.1 hb
      exact length_elementAt (hlen input hinput) hj
    rw [helements j hj]
    exact isReduced_foldl ht k hwidth

/-- After a round of an all-reduce of integers all participants have the same bytes. Each element of
these is the reduction of the elements at its place. Another round in which the same contributions
are brought by other ranks, or in another order, ends with the same bytes. -/
theorem allReduce_agrees (ht : t.isFloat = false)
    (h : Round timeout (.allReduce k t) key (oneBlockEach inputs) moves) (hn : 2 ≤ inputs.length)
    (len : Nat) (hw : t.width ∣ len) (hlen : ∀ b ∈ inputs, b.length = len) :
    ∃ result : Bytes, result.length = len ∧
      (∀ rank < inputs.length, ((start timeout).run moves).outcome? (.allReduce k t) key rank =
        some (.ok (some result))) ∧
      (∀ j < len / t.width, IsReduced t k (inputs.map (elementAt t j)) (elementAt t j result)) ∧
      ∀ (timeout' : Nat) (key' : RendezvousKey) (inputs' : List Bytes) (moves' : List (Move κ)),
        inputs'.Perm inputs → Round timeout' (.allReduce k t) key' (oneBlockEach inputs') moves' →
        ∀ rank < inputs'.length, ((start timeout').run moves').outcome? (.allReduce k t) key' rank =
          some (.ok (some result)) := by
  obtain ⟨result, hresult, hlength, hreduced⟩ := exists_isReduced ht k hn hw hlen
  refine ⟨result, hlength, fun rank hrank => ?_, hreduced,
    fun timeout' key' inputs' moves' hperm h' rank hrank => ?_⟩
  · rw [h.outcome_allReduce hrank, hresult]
    rfl
  · obtain ⟨result', hresult', hlength', hreduced'⟩ := exists_isReduced ht k
      (hperm.length_eq ▸ hn) hw fun b hb => hlen b (hperm.mem_iff.1 hb)
    have hsame : result' = result := ext_elementAt hw hlength' hlength fun j hj =>
      (hreduced' j hj).unique (hreduced j hj) (hperm.map _)
    rw [h'.outcome_allReduce hrank, hresult', hsame]
    rfl

theorem allReduce_agrees_pair :
    ∃ result : Bytes, result.length = 4 ∧
      (∀ rank < 2, ((start 50).run (pairCalls (.allReduce .max .s32) [5, 0, 0, 0]
        [254, 255, 255, 255])).outcome? (.allReduce .max .s32) pairKey rank =
          some (.ok (some result))) ∧
      IsReduced .s32 .max [[5, 0, 0, 0], [254, 255, 255, 255]] (elementAt .s32 0 result) := by
  obtain ⟨result, hlength, hgot, hreduced, -⟩ := allReduce_agrees (t := .s32) rfl
    (round_pairCalls (.allReduce .max .s32) (.inl rfl) [5, 0, 0, 0] [254, 255, 255, 255])
    (by decide) 4 (by decide) (by decide)
  exact ⟨result, hlength, hgot, hreduced 0 (by decide)⟩

/-- Truth values that have been reduced are zeros and ones. -/
theorem zero_or_one_of_reduceAll {c : Bytes} (hn : 2 ≤ inputs.length)
    (h : reduceAll .pred k inputs = .ok c) : ∀ x ∈ c, x = 0 ∨ x = 1 := by
  obtain ⟨len, hw, hlen⟩ := (reduceAll_eq_ok_iff k hn).1 ⟨c, h⟩
  obtain ⟨c', hc', hlength, hreduced⟩ := exists_isReduced (t := .pred) rfl k hn hw hlen
  obtain rfl : c' = c := Except.ok.inj (hc'.symm.trans h)
  intro x hx
  obtain ⟨j, hj, rfl⟩ := List.mem_iff_getElem.1 hx
  have hplace : elementAt .pred j c' = [c'[j]] := by
    rw [elementAt, ElementType.width, Nat.mul_one, List.drop_eq_getElem_cons hj]
    rfl
  obtain ⟨-, htruth⟩ := hreduced j (by simpa [ElementType.width] using hlength ▸ hj)
  rw [hplace, if_pos rfl] at htruth
  cases k with
  | sum | max | product | min =>
    rw [IsReducedTruth, List.singleton_inj] at htruth
    rw [htruth]
    split
    · exact .inr rfl
    · exact .inl rfl

/-- Two participants or more get a result of an all-reduce exactly if what they bring is uniform, and
an error otherwise, and truth values come out as zeros and ones. A lone participant gets back what
it brought, whatever it is. -/
theorem allReduce_validates
    (h : Round timeout (.allReduce k t) key (oneBlockEach inputs) moves) :
    let got := ((start timeout).run moves).outcome? (.allReduce k t) key
    (2 ≤ inputs.length →
      ((∀ rank < inputs.length, ∃ b, got rank = some (.ok (some b))) ↔ Uniform t inputs) ∧
      (¬ Uniform t inputs → ∀ rank < inputs.length,
        ∃ e, got rank = some (.error e) ∧ e.kind = .invalidArgument) ∧
      (t = .pred → ∀ rank < inputs.length, ∀ b, got rank = some (.ok (some b)) →
        ∀ x ∈ b, x = 0 ∨ x = 1)) ∧
    ∀ b, inputs = [b] → got 0 = some (.ok (some b)) := by
  refine ⟨fun hn => ⟨⟨fun hall => ?_, fun huniform rank hrank => ?_⟩,
    fun hnot rank hrank => ?_, ?_⟩, ?_⟩
  · obtain ⟨b, hb⟩ := hall 0 (Nat.lt_of_lt_of_le Nat.two_pos hn)
    rw [h.outcome_allReduce (Nat.lt_of_lt_of_le Nat.two_pos hn)] at hb
    refine (reduceAll_eq_ok_iff k hn).1 ?_
    cases hreduce : reduceAll t k inputs with
    | ok c => exact ⟨c, rfl⟩
    | error e => rw [hreduce] at hb; cases hb
  · obtain ⟨c, hc⟩ := (reduceAll_eq_ok_iff k hn).2 huniform
    exact ⟨c, by rw [h.outcome_allReduce hrank, hc]; rfl⟩
  · cases hreduce : reduceAll t k inputs with
    | ok c => exact absurd ((reduceAll_eq_ok_iff k hn).1 ⟨c, hreduce⟩) hnot
    | error e =>
      exact ⟨e, by rw [h.outcome_allReduce hrank, hreduce]; rfl, kind_of_reduceAll hreduce⟩
  · rintro rfl rank hrank b hb
    rw [h.outcome_allReduce hrank] at hb
    cases hreduce : reduceAll .pred k inputs with
    | ok c =>
      rw [hreduce] at hb
      obtain rfl : c = b := by simpa [Functor.map, Except.map] using hb
      exact zero_or_one_of_reduceAll hn hreduce
    | error e => rw [hreduce] at hb; cases hb
  · rintro b rfl
    rw [h.outcome_allReduce (by simp)]
    rfl

/-- Two truth values, one of them written as 2, reduce to one or zero; strings of two lengths do not
reduce. -/
theorem allReduce_validates_pair :
    (∃ b : Bytes, ((start 50).run (pairCalls (.allReduce .sum .pred) [2] [0])).outcome?
        (.allReduce .sum .pred) pairKey 0 = some (.ok (some b)) ∧ ∀ x ∈ b, x = 0 ∨ x = 1) ∧
      ∃ e : Error, ((start 50).run (pairCalls (.allReduce .sum .u8) [2] [0, 1])).outcome?
        (.allReduce .sum .u8) pairKey 0 = some (.error e) ∧ e.kind = .invalidArgument := by
  constructor
  · have hround := round_pairCalls (.allReduce .sum .pred) (.inl rfl) [2] [0]
    obtain ⟨hvalue, -, htruth⟩ := (allReduce_validates hround).1 (by decide)
    obtain ⟨b, hb⟩ := hvalue.2 ⟨1, by decide, by decide⟩ 0 (by decide)
    exact ⟨b, hb, htruth rfl 0 (by decide) b hb⟩
  · have hround := round_pairCalls (.allReduce .sum .u8) (.inl rfl) [2] [0, 1]
    refine ((allReduce_validates hround).1 (by decide)).2.1 ?_ 0 (by decide)
    rintro ⟨len, -, hlen⟩
    have hfirst := hlen [2] (by decide)
    have hsecond := hlen [0, 1] (by decide)
    rw [← hfirst] at hsecond
    cases hsecond

def loneKey : RendezvousKey := ⟨⟨1⟩, [⟨0⟩], 7⟩

def loneCall (e : Exchange) (b : Bytes) : List (Move Unit) :=
  [.call e loneKey 0 [b], .keep e.kind 0]

theorem round_loneCall (k : ReductionKind) (t : ElementType) (b : Bytes) :
    Round 50 (.allReduce k t) loneKey (oneBlockEach [b]) (loneCall (.allReduce k t) b) where
  size := rfl
  calls := List.Perm.refl _
  inTime g hg := by
    have hone : g = ⟨0, [(0, [b])], false⟩ := List.mem_singleton.1 hg
    rw [hone]
  kept := rfl

theorem allReduce_lone_unread :
    (Round 50 (.allReduce .sum .f32) loneKey (oneBlockEach [[1, 2, 3, 4, 5, 6]])
        (loneCall (.allReduce .sum .f32) [1, 2, 3, 4, 5, 6]) ∧
      ¬ Uniform .f32 [[1, 2, 3, 4, 5, 6]] ∧
      ((start 50).run (loneCall (.allReduce .sum .f32) [1, 2, 3, 4, 5, 6])).outcome?
        (.allReduce .sum .f32) loneKey 0 = some (.ok (some [1, 2, 3, 4, 5, 6]))) ∧
    (Round 50 (.allReduce .sum .pred) loneKey (oneBlockEach [[2]])
        (loneCall (.allReduce .sum .pred) [2]) ∧
      ((start 50).run (loneCall (.allReduce .sum .pred) [2])).outcome?
        (.allReduce .sum .pred) loneKey 0 = some (.ok (some [2]))) := by
  refine ⟨⟨round_loneCall _ _ _, ?_, rfl⟩, round_loneCall _ _ _, rfl⟩
  rintro ⟨len, hw, hlen⟩
  rw [← hlen _ List.mem_cons_self] at hw
  exact absurd hw (by decide)

end Meetings

end OpFlow
