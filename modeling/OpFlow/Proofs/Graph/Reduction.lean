import OpFlow.Proofs.Graph.Search

/-!
The reduction keeps the order. Taking the nodes in order, a search from a node meets only nodes
behind it, whose edges are all still there, so an edge is cut exactly when a path of two or more edges
leads from its one end to the other. What remains reaches as far as before. With this the graph of a
sequence, reduced or not, orders every conflict and nothing else.
-/
namespace OpFlow.Graph

theorem Reaches.head {g : Graph} {a b c : Nat} (hab : g.Edge a b) (hbc : g.Reaches b c) :
    g.Reaches a c := (Reaches.edge hab).trans hbc

section Cut

variable {g : Graph} {node a b : Nat} {kept dropped : List Nat}

theorem getD_foldl_modify (preds : Array (List Nat)) (f : List Nat → List Nat)
    (hidem : ∀ ps, f (f ps) = f ps) (ds : List Nat) (hnil : f [] = []) :
    (ds.foldl (fun preds d => preds.modify d f) preds)[b]?.getD [] =
      if b ∈ ds then f (preds[b]?.getD []) else preds[b]?.getD [] := by
  induction ds generalizing preds with
  | nil => simp
  | cons d ds ih =>
    have hone : (preds.modify d f)[b]?.getD [] =
        if d = b then f (preds[b]?.getD []) else preds[b]?.getD [] := by
      rw [Array.getElem?_modify]
      split
      · cases preds[b]? <;> simp [hnil]
      · rfl
    rw [List.foldl_cons, ih, hone]
    by_cases hbd : d = b
    · subst hbd
      simp [hidem]
    · simp [hbd, Ne.symm hbd]

theorem predsOf_cut : (g.cut node kept dropped).predsOf b =
    if b ∈ dropped then (g.predsOf b).filter (· ≠ node) else g.predsOf b :=
  getD_foldl_modify g.preds (·.filter (· ≠ node)) (fun ps => by simp) dropped rfl

theorem succsOf_cut (hnode : node < g.succs.size) : (g.cut node kept dropped).succsOf a =
    if a = node then kept else g.succsOf a := by
  simp only [succsOf, cut, Array.getElem?_setIfInBounds]
  by_cases ha : a = node
  · subst ha
    simp [hnode]
  · simp [ha, Ne.symm ha]

theorem size_foldl_modify (preds : Array (List Nat)) (f : List Nat → List Nat) (ds : List Nat) :
    (ds.foldl (fun preds d => preds.modify d f) preds).size = preds.size := by
  induction ds generalizing preds with
  | nil => rfl
  | cons d ds ih => rw [List.foldl_cons, ih, Array.size_modify]

theorem size_cut : (g.cut node kept dropped).size = g.size := size_foldl_modify _ _ _

theorem length_flatten_set {xss : List (List Nat)} {i : Nat} {xs : List Nat}
    (hi : xss[i]? = some xs) (ys : List Nat) :
    (xss.set i ys).flatten.length + xs.length = xss.flatten.length + ys.length := by
  induction xss generalizing i with
  | nil => cases hi
  | cons zs xss ih =>
    cases i with
    | zero =>
      obtain rfl : zs = xs := by simpa using hi
      simp only [List.set_cons_zero, List.flatten_cons, List.length_append]
      omega
    | succ i =>
      have := @ih i (by simpa using hi)
      simp only [List.set_cons_succ, List.flatten_cons, List.length_append]
      omega

theorem edgeCount_cut (hnode : node < g.succs.size) :
    (g.cut node kept dropped).edgeCount + (g.succsOf node).length =
      g.edgeCount + kept.length := by
  have hget : g.succs.toList[node]? = some (g.succsOf node) := by simp [succsOf, hnode]
  simpa [edgeCount, cut] using length_flatten_set hget kept

end Cut

section Step

variable {g : Graph} {s : Nat} {r : Reducing}

/-- What has become of a graph when the nodes before `s` have been dealt with. -/
structure Reducing.Follows (g : Graph) (s : Nat) (r : Reducing) : Prop where
  footprints : r.graph.footprints = g.footprints
  size : r.graph.size = g.size
  sized : r.graph.succs.size = g.size
  preds : ∀ a b, a ∈ r.graph.predsOf b ↔ g.Edge a b ∧ (a < s → ¬ g.Detours a b)
  succs : ∀ a b, b ∈ r.graph.succsOf a ↔ g.Edge a b ∧ (a < s → ¬ g.Detours a b)
  nodup_preds : ∀ b, (r.graph.predsOf b).Nodup
  nodup_succs : ∀ a, (r.graph.succsOf a).Nodup
  stamped : r.stamps.size = g.size
  stamps : ∀ x t : Nat, r.stamps[x]? = some (some t) → t < s
  removed : r.removed + r.graph.edgeCount = g.edgeCount

theorem WellFormed.follows (h : g.WellFormed) :
    Reducing.Follows g 0 ⟨g, Array.replicate g.size none, 0⟩ where
  footprints := rfl
  size := rfl
  sized := h.sized
  preds a b := by simp [Edge]
  succs a b := by simp [h.mirrored]
  nodup_preds := h.nodup_preds
  nodup_succs := h.nodup_succs
  stamped := by simp
  stamps x t hx := by
    rw [Array.getElem?_replicate] at hx
    split at hx <;> cases hx
  removed := Nat.zero_add _

theorem WellFormed.lt_of_reaches (h : g.WellFormed) {a b : Nat} (hab : g.Reaches a b) : a < b :=
  hab.lt fun _ _ => h.forward

namespace Reducing.Follows

variable {horizon a b c d : Nat}

theorem isAhead_iff (h : Follows g s r) (ha : s < a) :
    IsAhead r.graph.succs horizon a b ↔ g.Edge a b ∧ b ≤ horizon := by
  rw [Graph.isAhead_iff]
  refine and_congr_left fun _ => ?_
  rw [← succsOf, h.succs]
  exact and_iff_left fun hlt => absurd hlt (by omega)

theorem reaches_of_isAhead (hg : g.WellFormed) (h : Follows g s r) (ha : s < a)
    (hab : Relation.ReflTransGen (IsAhead r.graph.succs horizon) a b) : a = b ∨ g.Reaches a b := by
  induction hab with
  | refl => exact .inl rfl
  | @tail b c _ hbc ih =>
    have hsb : s < b := ih.elim (fun e => e ▸ ha) fun hr => ha.trans (hg.lt_of_reaches hr)
    have hedge := ((h.isAhead_iff hsb).1 hbc).1
    exact .inr (ih.elim (fun e => e ▸ .edge hedge) fun hr => hr.tail hedge)

theorem isAhead_of_reaches (hg : g.WellFormed) (h : Follows g s r) (ha : s < a)
    (hab : g.Reaches a b) (hb : b ≤ horizon) :
    ∃ y, IsAhead r.graph.succs horizon a y ∧
      Relation.ReflTransGen (IsAhead r.graph.succs horizon) y b := by
  induction hab with
  | edge he => exact ⟨_, (h.isAhead_iff ha).2 ⟨he, hb⟩, .refl⟩
  | @tail b c hab hbc ih =>
    have hlt := hg.forward hbc
    obtain ⟨y, hy, hyb⟩ := ih (by omega)
    exact ⟨y, hy, hyb.tail ((h.isAhead_iff (ha.trans (hg.lt_of_reaches hab))).2 ⟨hbc, hb⟩)⟩

theorem mem_foldl_ahead {succs : Array (List Nat)} {out stack : List Nat} {y : Nat} :
    y ∈ out.foldl (fun stack child => ahead succs horizon child ++ stack) stack ↔
      y ∈ stack ∨ ∃ child ∈ out, IsAhead succs horizon child y := by
  induction out generalizing stack with
  | nil => simp
  | cons child out ih =>
    simp only [List.foldl_cons, ih, List.mem_append, List.mem_cons, or_and_right, exists_or,
      exists_eq_left, IsAhead, or_assoc]
    exact or_left_comm

theorem edge_iff (h : Follows g s r) : b ∈ r.graph.succsOf s ↔ g.Edge s b := by
  rw [h.succs]
  exact and_iff_left fun hlt => absurd hlt (Nat.lt_irrefl s)

/-- The search from the successors of the node stamps those of them that a longer path reaches. -/
theorem getElem?_search_iff (hg : g.WellFormed) (h : Follows g s r) (hd : g.Edge s d)
    (hhorizon : d ≤ horizon) :
    (search r.graph.succs s horizon r.stamps ((r.graph.succsOf s).foldl
      (fun stack child => ahead r.graph.succs horizon child ++ stack) []))[d]? = some (some s) ↔
      g.Detours s d := by
  have hnew : ∀ x : Nat, r.stamps[x]? ≠ some (some s) := fun x hx =>
    Nat.lt_irrefl s (h.stamps x s hx)
  rw [Graph.getElem?_search_iff (h.sized.trans h.stamped.symm) hnew
    (by rw [h.stamped]; exact hg.bounded hd)]
  simp only [mem_foldl_ahead, List.not_mem_nil, false_or, h.edge_iff]
  constructor
  · rintro ⟨y, ⟨child, hchild, hy⟩, hyd⟩
    have hlt := hg.forward hchild
    have hedge := ((h.isAhead_iff hlt).1 hy).1
    refine ⟨child, hchild, ?_⟩
    rcases h.reaches_of_isAhead hg (hlt.trans (hg.forward hedge)) hyd with rfl | hr
    · exact .edge hedge
    · exact hr.head hedge
  · rintro ⟨child, hchild, hr⟩
    obtain ⟨y, hy, hyd⟩ := h.isAhead_of_reaches hg (hg.forward hchild) hr hhorizon
    exact ⟨y, ⟨child, hchild, hy⟩, hyd⟩

theorem not_detours (hg : g.WellFormed) (h : Follows g s r) (hlen : (r.graph.succsOf s).length < 2)
    (hd : g.Edge s d) : ¬ g.Detours s d := by
  rintro ⟨b, hb, hr⟩
  have hlt := hg.lt_of_reaches hr
  rw [← h.edge_iff] at hb hd
  match hout : r.graph.succsOf s, hlen with
  | [], _ => simp [hout] at hb
  | [x], _ =>
    simp only [hout, List.mem_singleton] at hb hd
    omega

theorem pass (h : Follows g s r) (hpass : ∀ d, g.Edge s d → ¬ g.Detours s d) :
    Follows g (s + 1) r := by
  have hlater : ∀ a b, g.Edge a b →
      ((a < s → ¬ g.Detours a b) ↔ (a < s + 1 → ¬ g.Detours a b)) := by
    intro a b hab
    rcases Nat.lt_trichotomy a s with ha | rfl | ha
    · simp [ha, Nat.lt_succ_of_lt ha]
    · simpa using hpass b hab
    · simp [Nat.not_lt.2 ha, show ¬ a < s by omega]
  exact { h with
    preds := fun a b => (h.preds a b).trans (and_congr_right (hlater a b))
    succs := fun a b => (h.succs a b).trans (and_congr_right (hlater a b))
    stamps := fun x t hx => Nat.lt_succ_of_lt (h.stamps x t hx) }

/-- Cutting the edges that longer paths imply deals with the node. -/
theorem cut (h : Follows g s r) (hs : s < g.size) {kept dropped : List Nat}
    {stamps : Array (Option Nat)} (hkept : ∀ d, d ∈ kept ↔ g.Edge s d ∧ ¬ g.Detours s d)
    (hdropped : ∀ d, d ∈ dropped ↔ g.Edge s d ∧ g.Detours s d) (hnodup : kept.Nodup)
    (hlen : kept.length + dropped.length = (r.graph.succsOf s).length)
    (hsize : stamps.size = g.size)
    (hstamps : ∀ x t : Nat, stamps[x]? = some (some t) → t < s + 1) :
    Follows g (s + 1) ⟨r.graph.cut s kept dropped, stamps, r.removed + dropped.length⟩ := by
  have hnode : s < r.graph.succs.size := by rwa [h.sized]
  have hother : ∀ {a}, a ≠ s → (a < s + 1 ↔ a < s) := by omega
  refine ⟨h.footprints, size_cut.trans h.size, ?_, fun a b => ?_, fun a b => ?_, fun b => ?_,
    fun a => ?_, hsize, hstamps, ?_⟩
  · simpa [Graph.cut] using h.sized
  · rw [predsOf_cut]
    by_cases ha : a = s
    · subst ha
      split
      case isTrue hb => simp [((hdropped b).1 hb).2]
      case isFalse hb =>
        rw [h.preds]
        simp only [Nat.lt_irrefl, false_implies, and_true, Nat.lt_succ_self, true_implies]
        exact ⟨fun hab => ⟨hab, fun hd => hb ((hdropped b).2 ⟨hab, hd⟩)⟩, And.left⟩
    · have hmem : (a ∈ if b ∈ dropped then (r.graph.predsOf b).filter (· ≠ s)
          else r.graph.predsOf b) ↔ a ∈ r.graph.predsOf b := by
        split <;> simp [ha]
      rw [hmem, h.preds, hother ha]
  · rw [succsOf_cut hnode]
    split
    case isTrue ha =>
      subst ha
      simp [hkept]
    case isFalse ha => rw [h.succs, hother ha]
  · rw [predsOf_cut]
    split
    · exact (h.nodup_preds b).filter _
    · exact h.nodup_preds b
  · rw [succsOf_cut hnode]
    split
    · exact hnodup
    · exact h.nodup_succs a
  · have hcut : (r.graph.cut s kept dropped).edgeCount + _ = _ := edgeCount_cut hnode
    have := h.removed
    simp only
    omega

theorem step (hg : g.WellFormed) (h : Follows g s r) (hs : s < g.size) :
    Follows g (s + 1) (r.step s) := by
  unfold Reducing.step
  simp only [List.partition_eq_filter_filter]
  split
  case isTrue hlen => exact h.pass fun d hd => h.not_detours hg hlen hd
  case isFalse hlen =>
    have hhorizon : ∀ d, g.Edge s d → d ≤ (r.graph.succsOf s).max?.getD s := fun d hd => by
      have hmem := h.edge_iff.2 hd
      cases hmax : (r.graph.succsOf s).max? with
      | none => simp [List.max?_eq_none_iff.1 hmax] at hmem
      | some m => exact (List.max?_eq_some_iff.1 hmax).2 d hmem
    have hstamp : ∀ d, g.Edge s d → _ := fun d hd =>
      h.getElem?_search_iff hg hd (hhorizon d hd)
    refine h.cut hs (fun d => ?_) (fun d => ?_) ((h.nodup_succs s).filter _) ?_ ?_ ?_
    · simp only [List.mem_filter, h.edge_iff, decide_eq_true_eq, ne_eq]
      exact and_congr_right fun hd => not_congr (hstamp d hd)
    · simp only [List.mem_filter, h.edge_iff, Function.comp_apply, Bool.not_eq_true',
        decide_eq_false_iff_not, not_not, ne_eq]
      exact and_congr_right fun hd => hstamp d hd
    · exact (List.length_append.symm).trans (List.filter_append_perm _ _).length_eq
    · rw [size_search, h.stamped]
    · intro x t hx
      rcases eq_or_of_getElem?_search hx with rfl | hx
      · exact Nat.lt_succ_self t
      · exact Nat.lt_succ_of_lt (h.stamps x t hx)

theorem steps (hg : g.WellFormed) {n : Nat} (hn : n ≤ g.size) :
    Follows g n ((List.range n).foldl Reducing.step ⟨g, Array.replicate g.size none, 0⟩) := by
  induction n with
  | zero => exact hg.follows
  | succ n ih =>
    rw [List.range_succ, List.foldl_append]
    exact (ih (by omega)).step hg (by omega)

end Reducing.Follows

end Step

section Reduce

variable {g : Graph} {a b c : Nat}

theorem WellFormed.follows_reduce (hg : g.WellFormed) :
    ∃ r : Reducing, g.reduce = (r.graph, r.removed) ∧ Reducing.Follows g g.size r :=
  ⟨_, rfl, Reducing.Follows.steps hg (Nat.le_refl _)⟩

theorem WellFormed.edge_reduce_iff (hg : g.WellFormed) :
    g.reduce.1.Edge a c ↔ g.Edge a c ∧ ¬ g.Detours a c := by
  obtain ⟨r, hr, h⟩ := hg.follows_reduce
  rw [hr, Edge, h.preds]
  refine and_congr_right fun hac => ?_
  have hlt := (hg.forward hac).trans (hg.bounded hac)
  simp [hlt]

theorem WellFormed.reduce (hg : g.WellFormed) : g.reduce.1.WellFormed := by
  have hedge : ∀ {a b}, g.reduce.1.Edge a b → g.Edge a b := fun h => (hg.edge_reduce_iff.1 h).1
  obtain ⟨r, hr, h⟩ := hg.follows_reduce
  rw [hr] at hedge ⊢
  refine ⟨h.sized.trans h.size.symm, fun hab => hg.forward (hedge hab), fun hab => ?_,
    fun {a b} => ?_, h.nodup_preds, h.nodup_succs⟩
  · rw [h.size]
    exact hg.bounded (hedge hab)
  · rw [Edge, h.succs, h.preds]

theorem WellFormed.footprints_reduce (hg : g.WellFormed) :
    g.reduce.1.footprints = g.footprints := by
  obtain ⟨r, hr, h⟩ := hg.follows_reduce
  rw [hr, h.footprints]

theorem WellFormed.size_reduce (hg : g.WellFormed) : g.reduce.1.size = g.size := by
  obtain ⟨r, hr, h⟩ := hg.follows_reduce
  rw [hr, h.size]

theorem WellFormed.edgeCount_reduce (hg : g.WellFormed) :
    g.reduce.2 + g.reduce.1.edgeCount = g.edgeCount := by
  obtain ⟨r, hr, h⟩ := hg.follows_reduce
  rw [hr, h.removed]

/-- An edge that is cut is replaced by a path of shorter ones. -/
theorem WellFormed.reaches_reduce_of_edge (hg : g.WellFormed) (h : g.Edge a c) :
    g.reduce.1.Reaches a c := by
  induction hn : c - a using Nat.strongRecOn generalizing a c with
  | _ n ih =>
    by_cases hac : g.Detours a c
    · obtain ⟨b, hab, hbc⟩ := hac
      have path : ∀ d, g.Reaches b d → d ≤ c → g.reduce.1.Reaches b d := by
        intro d hd hdc
        have hlt := hg.forward hab
        induction hd with
        | edge he => exact ih _ (by have := hg.forward he; omega) he rfl
        | tail hbd he ihd =>
          have hde := hg.forward he
          have hbd' := hg.lt_of_reaches hbd
          exact (ihd (by omega)).trans (ih _ (by omega) he rfl)
      have hlt := hg.lt_of_reaches hbc
      have hlt' := hg.forward hab
      exact (ih _ (by omega) hab rfl).trans (path c hbc (Nat.le_refl c))
    · exact .edge (hg.edge_reduce_iff.2 ⟨h, hac⟩)

theorem WellFormed.reaches_reduce_iff (hg : g.WellFormed) :
    g.reduce.1.Reaches a b ↔ g.Reaches a b :=
  ⟨.mono fun _ _ h => .edge (hg.edge_reduce_iff.1 h).1, .mono fun _ _ => hg.reaches_reduce_of_edge⟩

end Reduce

section Build

variable {fs : List Footprint} {reduction : Bool} {a b c : Nat}

theorem wellFormed_build : (build reduction fs).WellFormed := by
  cases reduction
  · exact wellFormed_full fs
  · exact (wellFormed_full fs).reduce

theorem footprints_build : (build reduction fs).footprints = fs.toArray := by
  cases reduction
  · rfl
  · exact (wellFormed_full fs).footprints_reduce

@[simp] theorem size_build (reduction : Bool) (fs : List Footprint) :
    (build reduction fs).size = fs.length := by
  cases reduction
  · exact size_full fs
  · exact (wellFormed_full fs).size_reduce.trans (size_full fs)

theorem reaches_build_iff (reduction : Bool) :
    (build reduction fs).Reaches a b ↔ (full fs).Reaches a b := by
  cases reduction
  · rfl
  · exact (wellFormed_full fs).reaches_reduce_iff

theorem edge_full_of_edge_build (h : (build reduction fs).Edge a b) : (full fs).Edge a b := by
  cases reduction
  · exact h
  · exact ((wellFormed_full fs).edge_reduce_iff.1 h).1

theorem lt_of_edge_build (h : (build reduction fs).Edge a b) : a < b := wellFormed_build.forward h

theorem lt_length_of_edge_build (h : (build reduction fs).Edge a b) : b < fs.length := by
  simpa using wellFormed_build.bounded h

theorem lt_of_reaches_build (h : (build reduction fs).Reaches a b) : a < b :=
  wellFormed_build.lt_of_reaches h

theorem mem_succsOf_build : b ∈ (build reduction fs).succsOf a ↔ (build reduction fs).Edge a b :=
  wellFormed_build.mirrored

theorem nodup_succsOf_build : ((build reduction fs).succsOf a).Nodup :=
  wellFormed_build.nodup_succs a

theorem nodup_predsOf_build : ((build reduction fs).predsOf b).Nodup :=
  wellFormed_build.nodup_preds b

theorem nodup_filter_range (n : Nat) (p : Nat → Bool) : ((List.range n).filter p).Nodup :=
  List.nodup_range.filter p

theorem conflicts_build_iff : (build reduction fs).conflicts a b ↔
    ∃ f g, fs[a]? = some f ∧ fs[b]? = some g ∧ f.conflicts g := by
  simp only [conflicts, footprints_build, List.getElem?_toArray]
  cases fs[a]? <;> cases fs[b]? <;> simp

theorem reaches_build_of_conflicts (hab : a < b) (h : (build reduction fs).conflicts a b) :
    (build reduction fs).Reaches a b := by
  obtain ⟨f, g, hf, hg, hfg⟩ := conflicts_build_iff.1 h
  exact (reaches_build_iff reduction).2 (reaches_full_of_conflicts hab hf hg hfg)

theorem conflicts_build_comm :
    (build reduction fs).conflicts a b = (build reduction fs).conflicts b a := by
  rw [Bool.eq_iff_iff, conflicts_build_iff, conflicts_build_iff]
  constructor <;> rintro ⟨f, g, hf, hg, h⟩ <;>
    exact ⟨g, f, hg, hf, by rwa [Footprint.conflicts_comm]⟩

end Build

end OpFlow.Graph
