import Mathlib.Data.Set.Finite.Lattice
import Mathlib.Order.Interval.Finset.Nat
import OpFlow.Proofs.Machine.Attribution
import OpFlow.Proofs.Order.Site

/-!
Programs that come to an end. An operation halts on an arena if it is no loop, or the loop is over
after some turns. Where every operation halts on the arena that it finds in program order, there are
only so many nested runs, at any depth.
-/
namespace OpFlow

open Machine (Scope RunKey CallKey)

namespace Meaning

variable {α : Type} [Leaf α] {m : Meaning α} {x y z : Site α} {op : Operation α} {a : Arena}
  {scope scope' : Scope}

/-- An operation that finds this arena comes to an end. -/
def Halts (m : Meaning α) (op : Operation α) (a : Arena) : Prop :=
  match op with
  | .loop _ predicate condition body trips => ∃ n o,
      (Turning.after predicate trips (m.region condition) (m.region body) n a).2 = .finished o
  | _ => True

/-- Every operation comes to an end, in whatever nested run. -/
def Terminates (m : Meaning α) (x : Site α) : Prop :=
  ∀ scope y j op, m.Inside x scope y → y.region.ops[j]? = some op → m.Halts op (m.before y j)

theorem Halts.finite_nests (h : m.Halts op a) : {n | ∃ z, m.Nests op a n z}.Finite := by
  cases op with
  | leaf =>
    refine Set.finite_empty.subset ?_
    rintro n ⟨z, hz⟩
    cases hz
  | call =>
    refine (Set.finite_singleton 0).subset ?_
    rintro n ⟨z, hz⟩
    cases hz
    rfl
  | conditional =>
    refine (Set.finite_singleton 0).subset ?_
    rintro n ⟨z, hz⟩
    cases hz
    rfl
  | loop info predicate condition body trips =>
    obtain ⟨last, o, hover⟩ := h
    refine (Set.finite_Iio last).subset ?_
    rintro n ⟨z, hz⟩
    by_contra hn
    cases hz with
    | turn hgoing =>
      rw [Turning.after_of_finished hover (not_lt.1 hn)] at hgoing
      cases hgoing

/-! ### Runs from the outside in -/

theorem Inside.trans (h : m.Inside x scope y) (h' : m.Inside y scope' z) :
    m.Inside x (scope' ++ scope) z := by
  induction h' with
  | here => exact h
  | nested _ hop hz ih => exact .nested ih hop hz

theorem Inside.cases_outermost (h : m.Inside x scope z) : scope = [] ∧ z = x ∨
    ∃ j n op y rest, scope = rest ++ [(j, n)] ∧ x.region.ops[j]? = some op ∧
      m.Nests op (m.before x j) n y ∧ m.Inside y rest z := by
  induction h with
  | here => exact .inl ⟨rfl, rfl⟩
  | @nested y z op j n scope _ hop hz ih =>
    rcases ih with ⟨rfl, rfl⟩ | ⟨j', n', op', y', rest, rfl, hop', hy', hy⟩
    · exact .inr ⟨j, n, op, z, [], rfl, hop, hz, .here⟩
    · exact .inr ⟨j', n', op', y', (j, n) :: rest, rfl, hop', hy', .nested hy hop hz⟩

theorem Terminates.inside (h : m.Terminates x) (hy : m.Inside x scope y) : m.Terminates y :=
  fun _ _ _ _ hz hop => h _ _ _ _ (hy.trans hz) hop

/-- The nested runs of the operations of a region. -/
theorem Terminates.finite_nested (h : m.Terminates x) : {q : (Nat × Nat) × Site α |
    ∃ op, x.region.ops[q.1.1]? = some op ∧ m.Nests op (m.before x q.1.1) q.1.2 q.2}.Finite := by
  refine Set.Finite.of_finite_image (f := Prod.fst) ?_ ?_
  · refine ((Set.finite_Iio x.region.ops.length).biUnion
      (t := fun j => Prod.mk j '' {n | ∃ op z, x.region.ops[j]? = some op ∧
        m.Nests op (m.before x j) n z}) fun j _ => Set.Finite.image _ ?_).subset ?_
    · cases hop : x.region.ops[j]? with
      | none => simp
      | some op => simpa using (h _ _ j op .here hop).finite_nests
    · rintro _ ⟨⟨⟨j, n⟩, z⟩, ⟨op, hop, hz⟩, rfl⟩
      simp only [Set.mem_iUnion]
      exact ⟨j, (List.getElem?_eq_some_iff.1 hop).1, n, ⟨op, z, hop, hz⟩, rfl⟩
  · rintro ⟨⟨j, n⟩, z⟩ ⟨op, hop, hz⟩ ⟨⟨j', n'⟩, z'⟩ ⟨op', hop', hz'⟩ heq
    obtain ⟨rfl, rfl⟩ := Prod.mk.inj (show (j, n) = (j', n') from heq)
    obtain rfl := Option.some.inj (hop.symm.trans hop')
    obtain rfl := hz.unique hz'
    rfl

/-- There are only so many runs inside one that comes to an end. -/
theorem Terminates.finite (h : m.Terminates x) :
    {p : Scope × Site α | m.Inside x p.1 p.2}.Finite := by
  induction hsize : sizeOf x.region using Nat.strong_induction_on generalizing x with
  | _ size ih =>
    refine ((Set.finite_singleton ([], x)).union (h.finite_nested.biUnion
      (t := fun q => (fun p : Scope × Site α => (p.1 ++ [q.1], p.2)) ''
        {p | m.Inside q.2 p.1 p.2}) fun q hq => Set.Finite.image _ ?_)).subset ?_
    · obtain ⟨op, hop, hq⟩ := hq
      exact ih _ (hsize ▸ Machine.Crew.sizeOf_lt_of_mem_nested (List.mem_of_getElem? hop) hq.mem_nested)
        (h.inside (.nested .here hop hq)) rfl
    · rintro ⟨scope, z⟩ hz
      rcases Inside.cases_outermost hz with ⟨rfl, rfl⟩ | ⟨j, n, op, y, rest, rfl, hop, hy, hrest⟩
      · exact .inl rfl
      · refine .inr ?_
        simp only [Set.mem_iUnion]
        exact ⟨((j, n), y), ⟨op, hop, hy⟩, (rest, z), hrest, rfl⟩

theorem Terminates.finite_runs (h : m.Terminates x) (k : Nat) :
    {r : RunKey | r.host = k ∧ r.execution = 0 ∧ ∃ y, m.Inside x r.scope y}.Finite := by
  refine (h.finite.image fun p => (⟨k, 0, p.1⟩ : RunKey)).subset ?_
  rintro ⟨_, _, scope⟩ ⟨rfl, rfl, y, hy⟩
  exact ⟨(scope, y), hy, rfl⟩

/-- The calls that an execution comes to, with what they find. -/
theorem Terminates.finite_calls (h : m.Terminates x) (k : Nat) :
    {z : CallKey × Operation α × Arena | z.1.run.host = k ∧ z.1.run.execution = 0 ∧
      m.Calls x z.1 z.2.1 z.2.2}.Finite := by
  refine (h.finite.biUnion (t := fun p => ⋃ j ∈ Set.Iio p.2.region.ops.length,
    {z | z.1 = ⟨⟨k, 0, p.1⟩, j⟩ ∧ p.2.region.ops[j]? = some z.2.1 ∧ z.2.2 = m.before p.2 j})
    fun p _ => (Set.finite_Iio _).biUnion fun j _ => Set.Subsingleton.finite ?_).subset ?_
  · rintro ⟨c, op, a⟩ ⟨rfl, hop, rfl⟩ ⟨c', op', a'⟩ ⟨rfl, hop', rfl⟩
    obtain rfl := Option.some.inj (hop.symm.trans hop')
    rfl
  · rintro ⟨⟨⟨_, _, scope⟩, j⟩, op, _⟩ ⟨hk, he, y, hy, hop, ha⟩
    obtain rfl : _ = k := hk
    obtain rfl : _ = 0 := he
    obtain rfl : _ = m.before y j := ha
    simp only [Set.mem_iUnion]
    exact ⟨(scope, y), hy, j, (List.getElem?_eq_some_iff.1 hop).1, rfl, hop, rfl⟩

theorem Terminates.exists_length_le (h : m.Terminates x) :
    ∃ n, ∀ scope y, m.Inside x scope y → y.region.ops.length ≤ n := by
  obtain ⟨n, hn⟩ := (h.finite.image fun p => p.2.region.ops.length).bddAbove
  exact ⟨n, fun scope y hy => hn ⟨(scope, y), hy, rfl⟩⟩

end Meaning

end OpFlow
