import OpFlow.Operation

/-!
What is done inside an operation is covered by its footprint: every use that an operation of a nested
region declares is declared by the operation around it, at any depth.
-/
namespace OpFlow

namespace Footprint

/-- Every use of one footprint is a use of the other. -/
structure Within (f g : Footprint) : Prop where
  buffers : f.buffers ⊆ g.buffers
  resources : f.resources ⊆ g.resources

variable {f f' g g' : Footprint}

theorem Within.refl (f : Footprint) : f.Within f := ⟨fun _ => id, fun _ => id⟩

theorem Within.trans (h : f.Within g) (h' : g.Within g') : f.Within g' :=
  ⟨List.Subset.trans h.buffers h'.buffers, List.Subset.trans h.resources h'.resources⟩

theorem within_append_left (f g : Footprint) : f.Within (f ++ g) :=
  ⟨fun _ h => List.mem_append_left _ h, fun _ h => List.mem_append_left _ h⟩

theorem within_append_right (f g : Footprint) : g.Within (f ++ g) :=
  ⟨fun _ h => List.mem_append_right _ h, fun _ h => List.mem_append_right _ h⟩

theorem Within.conflicts (h : f.Within f') (h' : g.Within g') (hc : f.conflicts g) :
    f'.conflicts g' := by
  simp only [Footprint.conflicts, Bool.or_eq_true, List.any_eq_true] at hc ⊢
  rcases hc with ⟨u, hu, v, hv, huv⟩ | ⟨u, hu, v, hv, huv⟩
  · exact .inl ⟨u, h.buffers hu, v, h'.buffers hv, huv⟩
  · exact .inr ⟨u, h.resources hu, v, h'.resources hv, huv⟩

theorem Within.conflicts_eq_false (h : f.Within f') (h' : g.Within g')
    (hc : f'.conflicts g' = false) : f.conflicts g = false := by
  refine Bool.eq_false_iff.2 fun hne => ?_
  have := h.conflicts h' hne
  rw [hc] at this
  cases this

end Footprint

namespace Operation

variable {α : Type} [Leaf α]

theorem within_footprintOfOps {op : Operation α} {ops : List (Operation α)} (h : op ∈ ops) :
    op.footprint.Within (footprintOfOps ops) := by
  induction ops with
  | nil => cases h
  | cons op' ops ih =>
    rw [footprintOfOps]
    rcases List.mem_cons.1 h with rfl | h
    · exact Footprint.within_append_left _ _
    · exact (ih h).trans (Footprint.within_append_right _ _)

theorem within_footprintOfRegion {op : Operation α} {region : Program α} (h : op ∈ region.ops) :
    op.footprint.Within (footprintOfRegion region) := by
  obtain ⟨ops, reduction, verify⟩ := region
  rw [footprintOfRegion]
  exact within_footprintOfOps h

theorem within_footprintOfBranches {region : Program α} {branches : List (Program α)}
    (h : region ∈ branches) : (footprintOfRegion region).Within (footprintOfBranches branches) := by
  induction branches with
  | nil => cases h
  | cons b branches ih =>
    rw [footprintOfBranches]
    rcases List.mem_cons.1 h with rfl | h
    · exact Footprint.within_append_left _ _
    · exact (ih h).trans (Footprint.within_append_right _ _)

/-- A nested region touches nothing but what its operation declares. -/
theorem within_of_mem_nested {op : Operation α} {region : Program α} (h : region ∈ op.nested) :
    (footprintOfRegion region).Within op.footprint := by
  cases op with
  | leaf => cases h
  | call info body =>
    obtain rfl := List.mem_singleton.1 h
    rw [footprint]
    exact .refl _
  | conditional info index type branches =>
    rw [footprint]
    exact (within_footprintOfBranches h).trans (Footprint.within_append_right _ _)
  | loop info predicate condition body trips =>
    rw [footprint]
    refine Footprint.Within.trans ?_ (Footprint.within_append_right _ _)
    simp only [nested, List.mem_cons, List.not_mem_nil, or_false] at h
    rcases h with rfl | rfl
    · exact Footprint.within_append_left _ _
    · exact Footprint.within_append_right _ _

theorem within_of_mem_ops {op inner : Operation α} {region : Program α} (h : region ∈ op.nested)
    (hop : inner ∈ region.ops) : inner.footprint.Within op.footprint :=
  (within_footprintOfRegion hop).trans (within_of_mem_nested h)

theorem footprintOfRegion_eq (region : Program α) : footprintOfRegion region = region.footprint := by
  obtain ⟨ops, reduction, verify⟩ := region
  rw [footprintOfRegion]
  induction ops with
  | nil => rfl
  | cons op ops ih =>
    rw [footprintOfOps, ih]
    rfl

end Operation

end OpFlow
