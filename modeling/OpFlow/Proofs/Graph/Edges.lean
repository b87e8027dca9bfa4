import OpFlow.Proofs.Graph.Hazards

/-!
Every edge is kept at both of its ends. In the graph that hazard tracking builds a node is noted with
exactly the nodes it waits for, once with each, and all edges lead forward between its nodes.
-/
namespace OpFlow.Graph

/-- The edges of a graph lead forward between its nodes, and each is kept once at both of its ends. -/
structure WellFormed (g : Graph) : Prop where
  sized : g.succs.size = g.size
  forward : ∀ {a b}, g.Edge a b → a < b
  bounded : ∀ {a b}, g.Edge a b → b < g.size
  mirrored : ∀ {a b}, b ∈ g.succsOf a ↔ g.Edge a b
  nodup_preds : ∀ b, (g.predsOf b).Nodup
  nodup_succs : ∀ a, (g.succsOf a).Nodup

section Note

variable {succs : Array (List Nat)} {a b c : Nat} {ps : List Nat} {pss : List (List Nat)}

@[simp] theorem size_note : (note succs b ps).size = succs.size := by
  induction ps generalizing succs with
  | nil => rfl
  | cons p ps ih => rw [note, List.foldl_cons, ← note, ih, Array.size_modify]

@[simp] theorem size_noteAll : (noteAll succs b pss).size = succs.size := by
  induction pss generalizing succs b with
  | nil => rfl
  | cons ps pss ih => rw [noteAll, ih, size_note]

theorem getD_note (hps : ps.Nodup) : (note succs b ps)[a]?.getD [] =
    succs[a]?.getD [] ++ if a ∈ ps ∧ a < succs.size then [b] else [] := by
  induction ps generalizing succs with
  | nil => simp [note]
  | cons p ps ih =>
    obtain ⟨hp, hps⟩ := List.nodup_cons.1 hps
    rw [note, List.foldl_cons, ← note, ih hps]
    by_cases hap : p = a
    · subst hap
      by_cases hlt : p < succs.size
      · simp [hp, hlt, Array.getElem_modify]
      · simp [hlt]
    · simp [Array.getElem?_modify, hap, Ne.symm hap]

theorem mem_noteAll (hpss : ∀ ps ∈ pss, ps.Nodup) : c ∈ (noteAll succs b pss)[a]?.getD [] ↔
    c ∈ succs[a]?.getD [] ∨ a < succs.size ∧ ∃ k ps, pss[k]? = some ps ∧ c = b + k ∧ a ∈ ps := by
  induction pss generalizing succs b with
  | nil => simp [noteAll]
  | cons ps pss ih =>
    rw [noteAll, ih fun qs hqs => hpss qs (by simp [hqs]), getD_note (hpss ps (by simp)), size_note,
      List.mem_append, or_assoc]
    refine or_congr_right ?_
    constructor
    · rintro (hc | ⟨hlt, k, qs, hk, rfl, ha⟩)
      · split at hc
        case isTrue h => exact ⟨h.2, 0, ps, rfl, by simpa using hc, h.1⟩
        case isFalse => cases hc
      · exact ⟨hlt, k + 1, qs, hk, by omega, ha⟩
    · rintro ⟨hlt, k, qs, hk, rfl, ha⟩
      cases k with
      | zero =>
        obtain rfl : ps = qs := by simpa using hk
        exact .inl (by simp [ha, hlt])
      | succ k => exact .inr ⟨hlt, k, qs, hk, by omega, ha⟩

/-- Nodes are noted in increasing order. -/
theorem pairwise_noteAll (hpss : ∀ ps ∈ pss, ps.Nodup)
    (hold : (succs[a]?.getD []).Pairwise (· < ·)) (hlt : ∀ c ∈ succs[a]?.getD [], c < b) :
    ((noteAll succs b pss)[a]?.getD []).Pairwise (· < ·) := by
  induction pss generalizing succs b with
  | nil => exact hold
  | cons ps pss ih =>
    have hnote : (note succs b ps)[a]?.getD [] = _ := getD_note (hpss ps (by simp))
    refine ih (fun qs hqs => hpss qs (by simp [hqs])) ?_ fun c hc => ?_
    · rw [hnote]
      split
      · refine List.pairwise_append.2 ⟨hold, by simp, fun c hc d hd => ?_⟩
        obtain rfl : d = b := by simpa using hd
        exact hlt c hc
      · simpa using hold
    · rw [hnote, List.mem_append] at hc
      rcases hc with hc | hc
      · have := hlt c hc
        omega
      · split at hc
        · obtain rfl : c = b := by simpa using hc
          omega
        · cases hc

end Note

theorem nodup_of_mem_predecessors {fs : List Footprint} {ps : List Nat} (h : ps ∈ predecessors fs) :
    ps.Nodup := by
  obtain ⟨j, hj⟩ := List.getElem?_of_mem h
  rw [predecessors, getElem?_predecessorsFrom, Option.map_eq_some_iff] at hj
  obtain ⟨f, -, rfl⟩ := hj
  exact nodup_distinct _

theorem edge_full_iff_predecessors {fs : List Footprint} {a b : Nat} :
    (full fs).Edge a b ↔ ∃ ps, (predecessors fs)[b]? = some ps ∧ a ∈ ps := by
  simp only [Edge, predsOf, full, List.getElem?_toArray]
  cases (predecessors fs)[b]? <;> simp

theorem pairwise_succsOf_full (fs : List Footprint) (a : Nat) :
    ((full fs).succsOf a).Pairwise (· < ·) := by
  have hnone : (Array.replicate (predecessors fs).length ([] : List Nat))[a]?.getD [] = [] := by
    rw [Array.getElem?_replicate]
    split <;> rfl
  refine pairwise_noteAll (fun ps => nodup_of_mem_predecessors) ?_ ?_
  · rw [hnone]
    exact .nil
  · rw [hnone]
    simp

theorem wellFormed_full (fs : List Footprint) : (full fs).WellFormed where
  sized := by simp [full, size]
  forward h := (conflicts_of_edge_full h).1
  bounded h := by
    obtain ⟨f, hf, -⟩ := edge_full_iff.1 h
    simpa using (List.getElem?_eq_some_iff.1 hf).1
  mirrored {a b} := by
    rw [edge_full_iff_predecessors]
    simp only [succsOf, full]
    rw [mem_noteAll fun ps => nodup_of_mem_predecessors]
    constructor
    · rintro (h | ⟨-, k, ps, hk, rfl, ha⟩)
      · rw [Array.getElem?_replicate] at h
        split at h <;> cases h
      · exact ⟨ps, by simpa using hk, ha⟩
    · rintro ⟨ps, hb, ha⟩
      have hab := (conflicts_of_edge_full (edge_full_iff_predecessors.2 ⟨ps, hb, ha⟩)).1
      have hlen := (List.getElem?_eq_some_iff.1 hb).1
      exact .inr ⟨by simpa using hab.trans hlen, b, ps, hb, by simp, ha⟩
  nodup_preds b := by
    simp only [predsOf, full, List.getElem?_toArray]
    cases h : (predecessors fs)[b]? with
    | none => exact List.nodup_nil
    | some ps => exact nodup_of_mem_predecessors (List.mem_of_getElem? h)
  nodup_succs a := (pairwise_succsOf_full fs a).imp Nat.ne_of_lt

end OpFlow.Graph
