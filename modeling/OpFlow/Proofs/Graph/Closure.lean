import OpFlow.Proofs.Graph.Reduction

/-!
What a graph orders. One operation is reached from another exactly when a chain of conflicts, each in
program order, leads there; every edge is such a conflict. The reduction is exact and minimal: it
keeps the order, and with it sources, sinks and whether the order is fixed, and of the edges it keeps
just those that no longer path implies.
-/
namespace OpFlow.Graph

/-- Two operations of a sequence, the first before the second, whose footprints conflict. -/
def ConflictsInOrder (fs : List Footprint) (i j : Nat) : Prop :=
  i < j ∧ ∃ f g, fs[i]? = some f ∧ fs[j]? = some g ∧ f.conflicts g

section Closure

variable {fs : List Footprint} {reduction : Bool} {i j : Nat}

theorem conflictsInOrder_of_edge (h : (build reduction fs).Edge i j) : ConflictsInOrder fs i j :=
  conflicts_of_edge_full (edge_full_of_edge_build h)

theorem reaches_of_conflictsInOrder (h : ConflictsInOrder fs i j) :
    (build reduction fs).Reaches i j :=
  reaches_build_of_conflicts h.1 (conflicts_build_iff.2 h.2)

theorem reaches_build_iff_transGen :
    (build reduction fs).Reaches i j ↔ Relation.TransGen (ConflictsInOrder fs) i j := by
  constructor
  · intro h
    induction h with
    | edge he => exact .single (conflictsInOrder_of_edge he)
    | tail _ he ih => exact ih.tail (conflictsInOrder_of_edge he)
  · intro h
    induction h with
    | single hc => exact reaches_of_conflictsInOrder hc
    | tail _ hc ih => exact ih.trans (reaches_of_conflictsInOrder hc)

end Closure

/-- Reachability is the closure of the conflicts in program order. Every edge joins two operations
that conflict, leads forward, and is kept once at both of its ends. -/
theorem reaches_closure (reduction : Bool) (fs : List Footprint) :
    (∀ i j, (build reduction fs).Edge i j → ConflictsInOrder fs i j) ∧
    (∀ i j, j ∈ (build reduction fs).succsOf i ↔ i ∈ (build reduction fs).predsOf j) ∧
    (∀ i, ((build reduction fs).predsOf i).Nodup ∧ ((build reduction fs).succsOf i).Nodup) ∧
    (∀ i j, (build reduction fs).Reaches i j ↔ Relation.TransGen (ConflictsInOrder fs) i j) ∧
    ∀ i j, ConflictsInOrder fs i j → (build reduction fs).Reaches i j :=
  ⟨fun _ _ => conflictsInOrder_of_edge, fun _ _ => mem_succsOf_build,
    fun _ => ⟨nodup_predsOf_build, nodup_succsOf_build⟩, fun _ _ => reaches_build_iff_transGen,
    fun _ _ => reaches_of_conflictsInOrder⟩

/-- A read, a write and two more reads of one slot, the last of which is also written. -/
example : ((build true [⟨[.read ⟨0, 0, 1⟩], []⟩, ⟨[.write ⟨0, 0, 1⟩], []⟩, ⟨[.read ⟨0, 4, 1⟩], []⟩,
    ⟨[.read ⟨0, 0, 1⟩, .write ⟨0, 8, 1⟩], []⟩]).preds) = #[[], [0], [1], [2]] := by decide +kernel

section Invariants

variable {g h : Graph} {i : Nat}

theorem predsOf_isEmpty_iff : (g.predsOf i).isEmpty ↔ ∀ a, ¬ g.Reaches a i := by
  rw [List.isEmpty_iff]
  constructor
  · intro hempty a ha
    cases ha with
    | edge he | tail _ he => simp [Edge, hempty] at he
  · intro hno
    by_contra hne
    obtain ⟨a, ha⟩ := List.exists_mem_of_ne_nil _ hne
    exact hno a (.edge ha)

theorem Reaches.exists_edge {a b : Nat} (hab : g.Reaches a b) : ∃ c, g.Edge a c := by
  induction hab with
  | edge he => exact ⟨_, he⟩
  | tail _ _ ih => exact ih

theorem WellFormed.succsOf_isEmpty_iff (hg : g.WellFormed) :
    (g.succsOf i).isEmpty ↔ ∀ b, ¬ g.Reaches i b := by
  rw [List.isEmpty_iff]
  constructor
  · intro hempty b hb
    obtain ⟨c, hc⟩ := hb.exists_edge
    simp [← hg.mirrored, hempty] at hc
  · intro hno
    by_contra hne
    obtain ⟨b, hb⟩ := List.exists_mem_of_ne_nil _ hne
    exact hno b (.edge (hg.mirrored.1 hb))

theorem WellFormed.edge_succ_iff (hg : g.WellFormed) : g.Edge i (i + 1) ↔ g.Reaches i (i + 1) := by
  constructor
  · exact .edge
  · intro hr
    cases hr with
    | edge he => exact he
    | tail hab he =>
      have hlt := hg.lt_of_reaches hab
      have hlt' := hg.forward he
      omega

variable (hg : g.WellFormed) (hh : h.WellFormed) (hsize : h.size = g.size)
  (hreaches : ∀ a b, h.Reaches a b ↔ g.Reaches a b)

include hsize hreaches

theorem sources_congr : h.sources = g.sources := by
  rw [sources, sources, hsize]
  refine List.filter_congr fun i _ => Bool.eq_iff_iff.2 ?_
  simp only [predsOf_isEmpty_iff, hreaches]

include hg hh

theorem WellFormed.sinks_congr : h.sinks = g.sinks := by
  rw [sinks, sinks, hsize]
  refine List.filter_congr fun i _ => Bool.eq_iff_iff.2 ?_
  simp only [hg.succsOf_isEmpty_iff, hh.succsOf_isEmpty_iff, hreaches]

theorem WellFormed.isSequential_congr : h.isSequential = g.isSequential := by
  rw [isSequential, isSequential, hsize]
  refine List.all_congr rfl fun i => ?_
  cases i with
  | zero => rfl
  | succ i =>
    have hedge : i ∈ h.predsOf (i + 1) ↔ i ∈ g.predsOf (i + 1) := by
      rw [← Edge, ← Edge, hg.edge_succ_iff, hh.edge_succ_iff, hreaches]
    have hcontains : (h.predsOf (i + 1)).contains i = (g.predsOf (i + 1)).contains i := by
      rw [Bool.eq_iff_iff, List.contains_iff_mem, List.contains_iff_mem, hedge]
    rw [Nat.add_sub_cancel, hcontains]

end Invariants

/-- The reduction leaves out exactly the edges that longer paths imply, and tells how many they are;
what is reached from where, the sources, the sinks and whether the order is fixed stay the same. -/
theorem reduction_exact (fs : List Footprint) :
    build true fs = (build false fs).reduce.1 ∧
    (∀ a b, (build true fs).Reaches a b ↔ (build false fs).Reaches a b) ∧
    (build true fs).sources = (build false fs).sources ∧
    (build true fs).sinks = (build false fs).sinks ∧
    (build true fs).isSequential = (build false fs).isSequential ∧
    (∀ a c, (build true fs).Edge a c ↔
      (build false fs).Edge a c ∧ ¬ (build false fs).Detours a c) ∧
    (∀ a b, b ∈ (build true fs).succsOf a ↔ a ∈ (build true fs).predsOf b) ∧
    (build false fs).reduce.2 + (build true fs).edgeCount = (build false fs).edgeCount := by
  have hfull : (build false fs).WellFormed := wellFormed_build
  have hreduced : (build true fs).WellFormed := wellFormed_build
  have hsize : (build true fs).size = (build false fs).size := by simp
  have hreaches : ∀ a b, (build true fs).Reaches a b ↔ (build false fs).Reaches a b :=
    fun a b => hfull.reaches_reduce_iff
  exact ⟨rfl, hreaches, sources_congr hsize hreaches, hfull.sinks_congr hreduced hsize hreaches,
    hfull.isSequential_congr hreduced hsize hreaches, fun a c => hfull.edge_reduce_iff,
    fun a b => hreduced.mirrored, hfull.edgeCount_reduce⟩

end OpFlow.Graph
