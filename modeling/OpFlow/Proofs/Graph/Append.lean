import Mathlib.Data.List.Sort
import OpFlow.Operation.Outline
import OpFlow.Proofs.Graph.Reduction

/-!
Graphs of sequences that go on. Which nodes a node waits for depends on the operations up to it
alone, so a sequence to which another is appended keeps its graph, and whatever conflicts across the
join is ordered.
-/
namespace OpFlow

theorem Sorted.firstsAfter_sublist {α κ : Type} [DecidableEq κ] (key : α → κ) (x : α) (xs : List α) :
    (firstsAfter key x xs).Sublist (x :: xs) := by
  induction xs generalizing x with
  | nil => exact .refl _
  | cons y ys ih =>
    rw [firstsAfter]
    split
    · exact (ih x).trans ((List.sublist_cons_self y ys).cons_cons x)
    · exact (ih y).cons_cons x

theorem pairwise_distinct (xs : List Nat) : (distinct xs).Pairwise (· < ·) := by
  have hsub : (distinct xs).Sublist (Sorted.ofList (fun a b => a ≤ b) xs) := by
    rw [distinct]
    cases Sorted.ofList (fun a b : Nat => (a ≤ b : Bool)) xs with
    | nil => exact .refl _
    | cons x rest => exact Sorted.firstsAfter_sublist id x rest
  refine ((groups_le.pairwise_ofList xs).sublist hsub).imp₂ (fun a b hle hne => ?_)
    (nodup_distinct xs)
  exact Nat.lt_of_le_of_ne (by simpa using hle) hne

namespace Graph

/-- The nodes that a node waits for, and those that wait for it, are listed in increasing order. -/
structure Ascending (g : Graph) : Prop where
  preds : ∀ b, (g.predsOf b).Pairwise (· < ·)
  succs : ∀ a, (g.succsOf a).Pairwise (· < ·)

/-- The edges of a graph are some of those of another, in the order in which they are listed there. -/
structure Thins (h g : Graph) : Prop where
  preds : ∀ b, (h.predsOf b).Sublist (g.predsOf b)
  succs : ∀ a, (h.succsOf a).Sublist (g.succsOf a)

section Order

variable {g h k : Graph}

theorem Thins.refl (g : Graph) : g.Thins g := ⟨fun _ => .refl _, fun _ => .refl _⟩

theorem Thins.trans (h₁ : k.Thins h) (h₂ : h.Thins g) : k.Thins g :=
  ⟨fun b => (h₁.preds b).trans (h₂.preds b), fun a => (h₁.succs a).trans (h₂.succs a)⟩

theorem Thins.ascending (hh : h.Thins g) (hg : g.Ascending) : h.Ascending :=
  ⟨fun b => (hg.preds b).sublist (hh.preds b), fun a => (hg.succs a).sublist (hh.succs a)⟩

theorem thins_cut {node : Nat} {kept dropped : List Nat} (hkept : kept.Sublist (g.succsOf node)) :
    (g.cut node kept dropped).Thins g := by
  refine ⟨fun b => ?_, fun a => ?_⟩
  · rw [predsOf_cut]
    split
    · exact List.filter_sublist
    · exact .refl _
  · by_cases hnode : node < g.succs.size
    · rw [succsOf_cut hnode]
      split
      · next ha => exact ha ▸ hkept
      · exact .refl _
    · rw [succsOf, cut, Array.setIfInBounds_eq_of_size_le (Nat.le_of_not_lt hnode)]
      exact .refl _

theorem Reducing.thins_step (r : Reducing) (source : Nat) :
    (r.step source).graph.Thins r.graph := by
  unfold Reducing.step
  simp only [List.partition_eq_filter_filter]
  split
  · exact .refl _
  · exact thins_cut List.filter_sublist

theorem Reducing.thins_steps (r : Reducing) (sources : List Nat) :
    (sources.foldl Reducing.step r).graph.Thins r.graph := by
  induction sources generalizing r with
  | nil => exact .refl _
  | cons s sources ih => exact (ih (r.step s)).trans (r.thins_step s)

theorem ascending_full (fs : List Footprint) : (full fs).Ascending := by
  refine ⟨fun b => ?_, pairwise_succsOf_full fs⟩
  simp only [predsOf, full, predecessors, List.getElem?_toArray, getElem?_predecessorsFrom]
  cases fs[b]? with
  | none => exact .nil
  | some f => exact pairwise_distinct _

theorem ascending_build (reduction : Bool) (fs : List Footprint) : (build reduction fs).Ascending := by
  cases reduction
  · exact ascending_full fs
  · exact (Reducing.thins_steps _ _).ascending (ascending_full fs)

end Order

def AgreeBefore (n : Nat) (g h : Graph) : Prop := ∀ a b, b < n → (g.Edge a b ↔ h.Edge a b)

namespace AgreeBefore

variable {g h : Graph} {n a b : Nat}

theorem symm (hgh : AgreeBefore n g h) : AgreeBefore n h g := fun a b hb => (hgh a b hb).symm

theorem reaches (hgh : AgreeBefore n g h) (hg : g.WellFormed) (hb : b < n) (hab : g.Reaches a b) :
    h.Reaches a b := by
  induction hab with
  | edge he => exact .edge ((hgh _ _ hb).1 he)
  | tail _ he ih => exact (ih ((hg.forward he).trans hb)).tail ((hgh _ _ hb).1 he)

theorem detours (hgh : AgreeBefore n g h) (hg : g.WellFormed) (hb : b < n) (hab : g.Detours a b) :
    h.Detours a b := by
  obtain ⟨c, hac, hcb⟩ := hab
  have hc := hg.lt_of_reaches hcb
  exact ⟨c, (hgh _ _ (hc.trans hb)).1 hac, hgh.reaches hg hb hcb⟩

theorem reduce (hgh : AgreeBefore n g h) (hg : g.WellFormed) (hh : h.WellFormed) :
    AgreeBefore n g.reduce.1 h.reduce.1 := by
  intro a b hb
  rw [hg.edge_reduce_iff, hh.edge_reduce_iff, hgh a b hb]
  exact and_congr_right fun _ => not_congr ⟨hgh.detours hg hb, hgh.symm.detours hh hb⟩

theorem predsOf_eq (hgh : AgreeBefore n g h) (hg : g.Ascending) (hh : h.Ascending) (hb : b < n) :
    g.predsOf b = h.predsOf b :=
  (hg.preds b).eq_of_mem_iff (hh.preds b) fun a => hgh a b hb

theorem filter_succsOf_eq (hgh : AgreeBefore n g h) (hg : g.Ascending) (hh : h.Ascending)
    (hg' : g.WellFormed) (hh' : h.WellFormed) (a : Nat) :
    (g.succsOf a).filter (· < n) = (h.succsOf a).filter (· < n) := by
  refine ((hg.succs a).filter _).eq_of_mem_iff ((hh.succs a).filter _) fun b => ?_
  simp only [List.mem_filter, decide_eq_true_eq, hg'.mirrored, hh'.mirrored]
  exact and_congr_left fun hb => hgh a b hb

end AgreeBefore

theorem agreeBefore_full (fs gs : List Footprint) :
    AgreeBefore fs.length (full (fs ++ gs)) (full fs) := by
  intro a b hb
  rw [edge_full_iff, edge_full_iff, List.getElem?_append_left hb, Hazards.before, Hazards.before,
    List.take_append_of_le_length hb.le]

theorem agreeBefore_build (reduction : Bool) (fs gs : List Footprint) :
    AgreeBefore fs.length (build reduction (fs ++ gs)) (build reduction fs) := by
  cases reduction
  · exact agreeBefore_full fs gs
  · exact (agreeBefore_full fs gs).reduce (wellFormed_full _) (wellFormed_full _)

theorem filter_succsOf_build (reduction : Bool) (fs : List Footprint) (a : Nat) :
    ((build reduction fs).succsOf a).filter (· < fs.length) = (build reduction fs).succsOf a :=
  List.filter_eq_self.2 fun _ hb => decide_eq_true (lt_length_of_edge_build (mem_succsOf_build.1 hb))

end Graph

theorem Footprint.concat_append (fs gs : List Footprint) :
    concat (fs ++ gs) = concat fs ++ concat gs := by
  rw [concat, List.flatMap_append, List.flatMap_append]
  rfl

namespace Region

variable {α : Type} [Leaf α]

theorem footprints_append (r s : Program α) :
    (r.append s).footprints = r.footprints ++ s.footprints := List.map_append

/-- Appending keeps the graph of the first program, reduced or not. Each of its nodes waits for the
nodes it waited for, and releases the nodes it released and none of the first program besides.
Operations of the two programs that conflict are ordered, the first program's before the second's.
The uses of the whole are those of the one and then those of the other. -/
theorem graph_append (r s : Program α) :
    let first := r.graph
    let whole := (r.append s).graph
    whole.size = r.ops.length + s.ops.length ∧
    (∀ b < r.ops.length, whole.predsOf b = first.predsOf b) ∧
    (∀ a < r.ops.length, (whole.succsOf a).filter (· < r.ops.length) = first.succsOf a) ∧
    (∀ i j f g, r.footprints[i]? = some f → s.footprints[j]? = some g → f.conflicts g →
      whole.Reaches i (r.ops.length + j) ∧ ¬ whole.Reaches (r.ops.length + j) i) ∧
    (r.append s).footprint.buffers = r.footprint.buffers ++ s.footprint.buffers ∧
    (r.append s).footprint.resources = r.footprint.resources ++ s.footprint.resources := by
  have hagree := Graph.agreeBefore_build r.reduction r.footprints s.footprints
  have hwhole := Graph.ascending_build r.reduction (r.footprints ++ s.footprints)
  have hfirst := Graph.ascending_build r.reduction r.footprints
  have huses : (r.append s).footprint = r.footprint ++ s.footprint := by
    rw [footprint, footprints_append, Footprint.concat_append]
    rfl
  rw [length_footprints] at hagree
  have hgraph : (r.append s).graph = Graph.build r.reduction (r.footprints ++ s.footprints) := by
    rw [← footprints_append]
    rfl
  dsimp only
  rw [hgraph]
  refine ⟨by simp [length_footprints], fun b hb => hagree.predsOf_eq hwhole hfirst hb, fun a _ => ?_,
    fun i j f g hf hg hfg => ?_, by rw [huses, Footprint.buffers_append],
    by rw [huses, Footprint.resources_append]⟩
  · rw [hagree.filter_succsOf_eq hwhole hfirst Graph.wellFormed_build Graph.wellFormed_build,
      ← length_footprints r, Graph.filter_succsOf_build]
    rfl
  · have hi : i < r.footprints.length := (List.getElem?_eq_some_iff.1 hf).1
    have hlt : i < r.ops.length + j := by
      rw [length_footprints] at hi
      omega
    have hconflicts : (Graph.build r.reduction (r.footprints ++ s.footprints)).conflicts i
        (r.ops.length + j) := Graph.conflicts_build_iff.2 ⟨f, g, by rwa [List.getElem?_append_left hi],
      by rwa [← length_footprints r, List.getElem?_append_right (Nat.le_add_right _ _),
        Nat.add_sub_cancel_left], hfg⟩
    exact ⟨Graph.reaches_build_of_conflicts hlt hconflicts,
      fun hback => Nat.lt_asymm hlt (Graph.lt_of_reaches_build hback)⟩

end Region

end OpFlow
