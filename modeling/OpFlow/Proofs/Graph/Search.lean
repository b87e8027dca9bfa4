import Mathlib.Logic.Relation
import OpFlow.Graph.Reduction
import OpFlow.Proofs.Graph.Edges

/-!
A search stamps exactly the nodes that its stack leads to: every stamped node is led to, the stack is
stamped, and what lies right behind a stamped node is stamped too. Stamps of other searches stay.
-/
namespace OpFlow.Graph

section Search

variable {succs : Array (List Nat)} {source horizon a b x : Nat} {stamps : Array (Option Nat)}
  {stack : List Nat}

def IsAhead (succs : Array (List Nat)) (horizon a b : Nat) : Prop := b ∈ ahead succs horizon a

theorem isAhead_iff : IsAhead succs horizon a b ↔ b ∈ succs[a]?.getD [] ∧ b ≤ horizon := by
  simp [IsAhead, ahead]

theorem isStamped_set : isStamped (stamps.setIfInBounds a (some source)) source x ↔
    x = a ∨ isStamped stamps source x := by
  simp only [isStamped, Array.getElem?_setIfInBounds]
  by_cases hxa : a = x
  · subst hxa
    rw [if_pos rfl]
    split <;> simp
  · simp [hxa, Ne.symm hxa]

theorem isStamped_search_of_isStamped (h : isStamped stamps source x) :
    isStamped (search succs source horizon stamps stack) source x := by
  fun_induction search succs source horizon stamps stack with
  | case1 => exact h
  | case2 stamps node stack _ ih => exact ih h
  | case3 stamps node stack _ ih => exact ih (isStamped_set.2 (.inr h))

theorem isStamped_search_of_mem (h : x ∈ stack) :
    isStamped (search succs source horizon stamps stack) source x := by
  fun_induction search succs source horizon stamps stack with
  | case1 => cases h
  | case2 stamps node stack hnode ih =>
    rcases List.mem_cons.1 h with rfl | h
    · exact isStamped_search_of_isStamped hnode
    · exact ih h
  | case3 stamps node stack _ ih =>
    rcases List.mem_cons.1 h with rfl | h
    · exact isStamped_search_of_isStamped (isStamped_set.2 (.inl rfl))
    · exact ih (List.mem_append_right _ h)

/-- A node is stamped only if the stack leads to it. -/
theorem of_isStamped_search (h : isStamped (search succs source horizon stamps stack) source x) :
    isStamped stamps source x ∨
      ∃ y ∈ stack, Relation.ReflTransGen (IsAhead succs horizon) y x := by
  fun_induction search succs source horizon stamps stack with
  | case1 => exact .inl h
  | case2 stamps node stack _ ih =>
    rcases ih h with h | ⟨y, hy, hyx⟩
    · exact .inl h
    · exact .inr ⟨y, List.mem_cons_of_mem _ hy, hyx⟩
  | case3 stamps node stack _ ih =>
    rcases ih h with h | ⟨y, hy, hyx⟩
    · rcases isStamped_set.1 h with rfl | h
      · exact .inr ⟨x, by simp, .refl⟩
      · exact .inl h
    · rcases List.mem_append.1 hy with hy | hy
      · exact .inr ⟨node, by simp, .head hy hyx⟩
      · exact .inr ⟨y, List.mem_cons_of_mem _ hy, hyx⟩

/-- What lies right behind a stamped node is stamped, if what the search does not yet reach from
there is still on its stack. -/
theorem isStamped_search_of_isAhead
    (hclosed : ∀ a b, isStamped stamps source a → IsAhead succs horizon a b →
      isStamped stamps source b ∨ b ∈ stack)
    (ha : isStamped (search succs source horizon stamps stack) source a)
    (hab : IsAhead succs horizon a b) :
    isStamped (search succs source horizon stamps stack) source b := by
  fun_induction search succs source horizon stamps stack with
  | case1 => simpa using hclosed a b ha hab
  | case2 stamps node stack hnode ih =>
    refine ih (fun a b ha hab => ?_) ha
    rcases hclosed a b ha hab with hb | hb
    · exact .inl hb
    · rcases List.mem_cons.1 hb with rfl | hb
      · exact .inl hnode
      · exact .inr hb
  | case3 stamps node stack _ ih =>
    refine ih (fun a b ha hab => ?_) ha
    rcases isStamped_set.1 ha with rfl | ha
    · exact .inr (List.mem_append_left _ hab)
    · rcases hclosed a b ha hab with hb | hb
      · exact .inl (isStamped_set.2 (.inr hb))
      · rcases List.mem_cons.1 hb with rfl | hb
        · exact .inl (isStamped_set.2 (.inl rfl))
        · exact .inr (List.mem_append_right _ hb)

/-- A search leaves no other stamps than its own. -/
theorem eq_or_of_getElem?_search {t : Nat}
    (h : (search succs source horizon stamps stack)[x]? = some (some t)) :
    t = source ∨ stamps[x]? = some (some t) := by
  fun_induction search succs source horizon stamps stack with
  | case1 => exact .inr h
  | case2 stamps node stack _ ih => exact ih h
  | case3 stamps node stack _ ih =>
    rcases ih h with h | h
    · exact .inl h
    · rw [Array.getElem?_setIfInBounds] at h
      split at h
      case isTrue =>
        split at h
        · exact .inl (by simpa using h.symm)
        · cases h
      case isFalse => exact .inr h

theorem isStamped_iff_of_lt (hx : x < stamps.size) :
    isStamped stamps source x ↔ stamps[x]? = some (some source) := by
  simp [isStamped, hx]

/-- A search whose stamp is new stamps exactly the nodes that its stack leads to. -/
theorem getElem?_search_iff (hsize : succs.size = stamps.size)
    (hnew : ∀ x : Nat, stamps[x]? ≠ some (some source)) (hx : x < stamps.size) :
    (search succs source horizon stamps stack)[x]? = some (some source) ↔
      ∃ y ∈ stack, Relation.ReflTransGen (IsAhead succs horizon) y x := by
  have hfresh : ∀ {a}, isStamped stamps source a → ¬ a < stamps.size := fun ha hlt =>
    hnew _ ((isStamped_iff_of_lt hlt).1 ha)
  rw [← isStamped_iff_of_lt (by rwa [size_search])]
  constructor
  · intro h
    exact (of_isStamped_search h).resolve_left fun h => hfresh h hx
  · rintro ⟨y, hy, hyx⟩
    clear hx
    induction hyx with
    | refl => exact isStamped_search_of_mem hy
    | tail _ hbc ih =>
      refine isStamped_search_of_isAhead (fun a b ha hab => ?_) ih hbc
      have hnone : succs[a]? = none := by simpa [hsize] using hfresh ha
      simp [isAhead_iff, hnone] at hab

end Search

end OpFlow.Graph
