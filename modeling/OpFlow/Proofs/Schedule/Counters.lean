import OpFlow.Machine.Schedule
import OpFlow.Proofs.Graph.Reduction

/-!
The counters of a schedule say what they are meant to say. Against a record of which nodes have
completed, and which of these badly, every node counts its predecessors that have not completed, is
poisoned when one of them has completed badly, and becomes ready exactly when its last one completes.
-/
namespace OpFlow

namespace Schedule

/-- Everything but the counters of single nodes stays as it is when nodes are released. -/
structure SameButNodes (s t : Schedule) : Prop where
  graph : t.graph = s.graph
  verify : t.verify = s.verify
  remaining : t.remaining = s.remaining
  skipped : t.skipped = s.skipped
  firstError : t.firstError = s.firstError
  running : t.running = s.running
  size_pending : t.pending.size = s.pending.size
  size_poisoned : t.poisoned.size = s.poisoned.size

theorem sameButNodes_releaseAll (s : Schedule) (poison : Bool) (nodes : List Nat) :
    s.SameButNodes (s.releaseAll poison nodes).1 := by
  induction nodes generalizing s with
  | nil => exact ⟨rfl, rfl, rfl, rfl, rfl, rfl, rfl, rfl⟩
  | cons node nodes ih =>
    have h := ih (s.release node poison).1
    refine ⟨h.graph, h.verify, h.remaining, h.skipped, h.firstError, h.running, ?_, ?_⟩
    · exact h.size_pending.trans (by simp [release])
    · refine h.size_poisoned.trans ?_
      simp only [release]
      split <;> simp

theorem pending_release (s : Schedule) (node k : Nat) (poison : Bool) :
    (s.release node poison).1.pending[k]?.getD 0 =
      if k = node then s.pending[k]?.getD 0 - 1 else s.pending[k]?.getD 0 := by
  simp only [release, Array.getElem?_setIfInBounds]
  split
  · subst_vars
    split <;> simp_all
  · simp_all [eq_comm]

theorem pending_releaseAll (s : Schedule) (poison : Bool) {nodes : List Nat} (hn : nodes.Nodup)
    (k : Nat) : (s.releaseAll poison nodes).1.pending[k]?.getD 0 =
      if k ∈ nodes then s.pending[k]?.getD 0 - 1 else s.pending[k]?.getD 0 := by
  induction nodes generalizing s with
  | nil => simp [releaseAll]
  | cons node nodes ih =>
    obtain ⟨hnode, hn⟩ := List.nodup_cons.1 hn
    simp only [releaseAll, ih _ hn, pending_release, List.mem_cons]
    by_cases hk : k = node
    · subst hk
      simp [hnode]
    · simp [hk]

theorem isPoisoned_release (s : Schedule) (node k : Nat) (poison : Bool) :
    (s.release node poison).1.isPoisoned k =
      (s.isPoisoned k || (poison && k == node && decide (k < s.poisoned.size))) := by
  simp only [isPoisoned, release]
  cases poison
  · simp
  · simp only [if_true, Array.getElem?_setIfInBounds]
    by_cases hk : node = k
    · subst hk
      by_cases hlt : node < s.poisoned.size <;> simp [hlt]
    · simp [hk, Ne.symm hk]

theorem isPoisoned_releaseAll (s : Schedule) (poison : Bool) (nodes : List Nat) (k : Nat) :
    (s.releaseAll poison nodes).1.isPoisoned k =
      (s.isPoisoned k || (poison && nodes.contains k && decide (k < s.poisoned.size))) := by
  induction nodes generalizing s with
  | nil => simp [releaseAll]
  | cons node nodes ih =>
    have hsize : (s.release node poison).1.poisoned.size = s.poisoned.size := by
      simp only [release]
      split <;> simp
    simp only [releaseAll, ih, isPoisoned_release, hsize, List.contains_cons]
    cases s.isPoisoned k <;> cases poison <;> cases (k == node) <;> cases nodes.contains k <;> simp

theorem snd_releaseAll (s : Schedule) (poison : Bool) {nodes : List Nat} (hn : nodes.Nodup) :
    (s.releaseAll poison nodes).2 = nodes.filter fun k => s.pending[k]?.getD 0 == 1 := by
  induction nodes generalizing s with
  | nil => rfl
  | cons node nodes ih =>
    obtain ⟨hnode, hn⟩ := List.nodup_cons.1 hn
    have hrest : (nodes.filter fun k => (s.release node poison).1.pending[k]?.getD 0 == 1) =
        nodes.filter fun k => s.pending[k]?.getD 0 == 1 := by
      apply List.filter_congr
      intro k hk
      rw [pending_release, if_neg fun h : k = node => hnode (h ▸ hk)]
    simp only [releaseAll, ih _ hn, hrest, List.filter_cons]
    rfl

/-- The counters agree with a record of the nodes that have completed, and how. -/
structure Tracks (fs : List Footprint) (reduction : Bool) (done bad : Nat → Bool)
    (s : Schedule) : Prop where
  graph : s.graph = .build reduction fs
  size_pending : s.pending.size = fs.length
  size_poisoned : s.poisoned.size = fs.length
  pending : ∀ j < fs.length,
    s.pending[j]?.getD 0 = (s.graph.predsOf j).countP fun i => !done i
  poisoned : ∀ j < fs.length, s.isPoisoned j ↔ ∃ i ∈ s.graph.predsOf j, bad i
  remaining : s.remaining = (List.range fs.length).countP fun i => !done i

theorem tracks_start (fs : List Footprint) (reduction verify : Bool) :
    (start (.build reduction fs) verify).Tracks fs reduction (fun _ => false)
      (fun _ => false) := by
  have hsize : (Graph.build reduction fs).preds.size = fs.length := Graph.size_build reduction fs
  refine ⟨rfl, by simpa [start] using hsize, by simpa [start] using hsize, ?_, ?_, ?_⟩
  · intro j hj
    have hj' : j < (Graph.build reduction fs).preds.size := by omega
    simp [start, Graph.predsOf, hj']
  · intro j hj
    have hj' : j < (Graph.build reduction fs).preds.size := by omega
    simp [start, isPoisoned, hj']
  · simp [start]

def mark (p : Nat → Bool) (node : Nat) (b : Bool) : Nat → Bool := fun k => if k = node then b else p k

theorem countP_not_mark {xs : List Nat} (hxs : xs.Nodup) (done : Nat → Bool) (node : Nat)
    (hnode : done node = false) :
    (xs.countP fun i => !mark done node true i) + (if node ∈ xs then 1 else 0) =
      xs.countP fun i => !done i := by
  induction xs with
  | nil => simp
  | cons x xs ih =>
    obtain ⟨hx, hxs⟩ := List.nodup_cons.1 hxs
    have := ih hxs
    by_cases hxn : x = node
    · subst hxn
      simp only [hx, if_false, Nat.add_zero] at this
      simp [mark, hnode, ← this]
    · simp only [List.countP_cons, List.mem_cons, mark, hxn, Ne.symm hxn, if_false, false_or] at this ⊢
      omega

variable {fs : List Footprint} {reduction : Bool} {done bad : Nat → Bool} {s : Schedule}

theorem Tracks.congr {t : Schedule} (h : s.Tracks fs reduction done bad)
    (hgraph : t.graph = s.graph) (hpending : t.pending = s.pending)
    (hpoisoned : t.poisoned = s.poisoned) (hremaining : t.remaining = s.remaining) :
    t.Tracks fs reduction done bad := by
  refine ⟨hgraph.trans h.graph, hpending ▸ h.size_pending, hpoisoned ▸ h.size_poisoned, ?_, ?_,
    hremaining.trans h.remaining⟩
  · rw [hgraph, hpending]
    exact h.pending
  · rw [hgraph]
    simp only [isPoisoned, hpoisoned]
    exact h.poisoned

theorem Tracks.nodup_predsOf (h : s.Tracks fs reduction done bad) (j : Nat) :
    (s.graph.predsOf j).Nodup := by
  rw [h.graph]
  exact Graph.nodup_predsOf_build

/-- Completing a node releases the nodes that wait for it. -/
theorem Tracks.complete (h : s.Tracks fs reduction done bad) {node : Nat}
    (hlt : node < fs.length) (hnode : done node = false) (hbad : bad node = false) (failed : Bool) :
    (s.complete node failed).1.Tracks fs reduction (mark done node true) (mark bad node failed) := by
  have hsame := sameButNodes_releaseAll s failed (s.graph.succsOf node)
  have hsucc : ∀ j, j ∈ s.graph.succsOf node ↔ node ∈ s.graph.predsOf j := fun j => by
    rw [h.graph]
    exact Graph.mem_succsOf_build
  have hnodup : (s.graph.succsOf node).Nodup := h.graph ▸ Graph.nodup_succsOf_build
  refine ⟨hsame.graph.trans h.graph, hsame.size_pending.trans h.size_pending,
    hsame.size_poisoned.trans h.size_poisoned, ?_, ?_, ?_⟩
  · intro j hj
    have hgraph : (s.complete node failed).1.graph = s.graph := hsame.graph
    have hcount := countP_not_mark (h.nodup_predsOf j) done node hnode
    have hpend := pending_releaseAll s failed hnodup j
    rw [h.pending j hj, ← hcount] at hpend
    rw [hgraph]
    refine hpend.trans ?_
    simp only [hsucc]
    split <;> omega
  · intro j hj
    have hgraph : (s.complete node failed).1.graph = s.graph := hsame.graph
    have hpois := isPoisoned_releaseAll s failed (s.graph.succsOf node) j
    rw [hgraph]
    change (s.releaseAll failed (s.graph.succsOf node)).1.isPoisoned j ↔ _
    rw [hpois, Bool.or_eq_true, h.poisoned j hj]
    simp only [Bool.and_eq_true, List.contains_iff_mem, hsucc, decide_eq_true_eq, h.size_poisoned,
      hj, and_true, mark]
    constructor
    · rintro (⟨i, hi, hb⟩ | ⟨hf, hmem⟩)
      · exact ⟨i, hi, by split <;> simp_all⟩
      · exact ⟨node, hmem, by simp [hf]⟩
    · rintro ⟨i, hi, hb⟩
      by_cases hin : i = node
      · subst hin
        exact .inr ⟨by simpa using hb, hi⟩
      · exact .inl ⟨i, hi, by simpa [hin] using hb⟩
  · have hcount := countP_not_mark (List.nodup_range (n := fs.length)) done node hnode
    simp only [List.mem_range, hlt, if_true] at hcount
    change (s.releaseAll failed (s.graph.succsOf node)).1.remaining - 1 = _
    rw [hsame.remaining, h.remaining]
    omega

/-- What becomes ready is what waited for the node and for no other that has not completed. -/
theorem Tracks.mem_ready_iff (h : s.Tracks fs reduction done bad) {node : Nat}
    (hnode : done node = false) (failed : Bool) {j : Nat} :
    j ∈ (s.complete node failed).2 ↔
      node ∈ s.graph.predsOf j ∧ ∀ i ∈ s.graph.predsOf j, mark done node true i := by
  have hnodup : (s.graph.succsOf node).Nodup := h.graph ▸ Graph.nodup_succsOf_build
  have hsucc : j ∈ s.graph.succsOf node ↔ node ∈ s.graph.predsOf j := by
    rw [h.graph]
    exact Graph.mem_succsOf_build
  change j ∈ (s.releaseAll failed (s.graph.succsOf node)).2 ↔ _
  rw [snd_releaseAll s failed hnodup, List.mem_filter, hsucc, beq_iff_eq]
  refine and_congr_right fun hmem => ?_
  have hj : j < fs.length := by
    have : s.graph.Edge node j := hmem
    rw [h.graph] at this
    exact Graph.lt_length_of_edge_build this
  have hcount := countP_not_mark (h.nodup_predsOf j) done node hnode
  rw [h.pending j hj, ← hcount, if_pos hmem]
  simp [List.countP_eq_zero]

theorem Tracks.nodup_ready (h : s.Tracks fs reduction done bad) (node : Nat) (failed : Bool) :
    (s.complete node failed).2.Nodup := by
  have hnodup : (s.graph.succsOf node).Nodup := h.graph ▸ Graph.nodup_succsOf_build
  change (s.releaseAll failed (s.graph.succsOf node)).2.Nodup
  rw [snd_releaseAll s failed hnodup]
  exact hnodup.filter _

theorem Tracks.isComplete_iff (h : s.Tracks fs reduction done bad) :
    s.isComplete ↔ ∀ j < fs.length, done j := by
  simp [isComplete, h.remaining, List.countP_eq_zero]

end Schedule

end OpFlow
