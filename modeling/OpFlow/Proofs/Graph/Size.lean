import OpFlow.Proofs.Graph.Reduction
import Mathlib.Algebra.BigOperators.Group.Finset.Sigma
import Mathlib.Algebra.GroupWithZero.Nat
import Mathlib.Algebra.Order.BigOperators.Group.List
import Mathlib.Algebra.Order.Group.Nat
import Mathlib.Data.Finset.Card

/-!
The graph stays linear in the footprints. A write waits for every reader since the last write, so a
single operation may wait for many others; but each of these readers has stood with its place since
its own access, and the write takes it off again. So an access is worth one edge, to the last writer,
and one that only reads is worth a second, which some later write may draw to it.
-/
namespace OpFlow

namespace Footprint

/-- The places touched, in whatever order and however often they are declared. -/
def touched (f : Footprint) : Finset Place := (f.touches.map Prod.fst).toFinset

def onlyRead (f : Footprint) : Finset Place := f.touched.filter fun p => (p, .write) ∉ f.touches

theorem touched_eq_places (f : Footprint) : f.touched = f.places.toFinset := by
  ext p
  simp [touched, mem_places]

theorem length_accesses (f : Footprint) : f.accesses.length = f.touched.card := by
  rw [touched_eq_places, List.toFinset_card_of_nodup f.nodup_places, places, List.length_map]

theorem countP_accesses (f : Footprint) :
    f.accesses.countP (fun t => !t.2.isWrite) = f.onlyRead.card := by
  have hplaces : f.accesses.countP (fun t => !t.2.isWrite) = f.places.countP (fun p => !f.writes p) := by
    rw [places, List.countP_map]
    exact List.countP_congr fun t ht => by simp [isWrite_of_mem_accesses (p := t.1) (a := t.2) ht]
  have hread : f.onlyRead = (f.places.filter fun p => !f.writes p).toFinset := by
    ext p
    simp [onlyRead, touched_eq_places, ← writes_iff]
  rw [hplaces, hread, List.toFinset_card_of_nodup (f.nodup_places.filter _),
    List.countP_eq_length_filter]

theorem card_onlyRead_le (f : Footprint) : f.onlyRead.card ≤ f.touched.card :=
  Finset.card_filter_le _ _

end Footprint

theorem Hazard.length_awaited_le (h : Hazard) (write : Bool) :
    (h.awaited write).length ≤ 1 + if write then h.readers.length else 0 := by
  rw [awaited, List.length_append]
  cases write <;> simp

namespace Hazards

/-- The readers that stand with the places, each of which the next write to its place takes off. -/
def standing (hs : Hazards) : Nat := (hs.map fun e => e.2.readers.length).sum

@[simp] theorem standing_nil : standing [] = 0 := rfl

@[simp] theorem standing_cons (e : Place × Hazard) (hs : Hazards) :
    standing (e :: hs) = e.2.readers.length + standing hs := by simp [standing]

theorem standing_set (hs : Hazards) (p : Place) (h : Hazard) :
    (hs.set p h).standing + (hs.get p).readers.length = hs.standing + h.readers.length := by
  induction hs with
  | nil => simp [set, get]
  | cons e rest ih =>
    simp only [set, get]
    split
    · simp only [standing_cons]
      omega
    · simp only [standing_cons]
      omega

theorem length_awaited_add_standing_le (hs : Hazards) (i : Nat) (p : Place) (write : Bool) :
    ((hs.get p).awaited write).length + (hs.set p ((hs.get p).touched i write)).standing ≤
      hs.standing + 1 + if write then 0 else 1 := by
  have hawaited := (hs.get p).length_awaited_le write
  have hset := hs.standing_set p ((hs.get p).touched i write)
  cases write
  · simp only [Hazard.touched, Bool.false_eq_true, if_false, List.length_append,
      List.length_singleton] at hawaited hset ⊢
    omega
  · simp only [Hazard.touched, if_true, List.length_nil] at hawaited hset ⊢
    omega

theorem length_meet_add_standing_le (hs : Hazards) (i : Nat) (as : List (Place × Access)) :
    (hs.meet i as).1.length + (hs.meet i as).2.standing ≤
      hs.standing + as.length + as.countP (fun t => !t.2.isWrite) := by
  induction as generalizing hs with
  | nil => simp [meet]
  | cons t rest ih =>
    have hone := hs.length_awaited_add_standing_le i t.1 t.2.isWrite
    have hrest := ih (hs.set t.1 ((hs.get t.1).touched i t.2.isWrite))
    simp only [meet, List.length_append, List.length_cons, List.countP_cons, Bool.not_eq_true']
    cases hw : t.2.isWrite
    · simp only [hw, Bool.false_eq_true, if_false, if_true] at hone hrest ⊢
      omega
    · simp only [hw, if_true, Bool.true_eq_false, if_false] at hone hrest ⊢
      omega

end Hazards

theorem length_distinct_le (xs : List Nat) : (distinct xs).length ≤ xs.length :=
  ((nodup_distinct xs).subperm fun _ hx => mem_distinct.1 hx).length_le

def placesTouched (fs : List Footprint) : Nat := (fs.map fun f => f.touched.card).sum

def placesOnlyRead (fs : List Footprint) : Nat := (fs.map fun f => f.onlyRead.card).sum

theorem placesOnlyRead_le (fs : List Footprint) : placesOnlyRead fs ≤ placesTouched fs :=
  List.sum_le_sum fun f _ => f.card_onlyRead_le

theorem length_flatten_predecessorsFrom_le (hs : Hazards) (start : Nat) (fs : List Footprint) :
    (predecessorsFrom hs start fs).flatten.length ≤
      hs.standing + placesTouched fs + placesOnlyRead fs := by
  induction fs generalizing hs start with
  | nil => simp [predecessorsFrom]
  | cons f fs ih =>
    have hmeet := hs.length_meet_add_standing_le start f.accesses
    rw [f.length_accesses, f.countP_accesses] at hmeet
    have hdistinct := length_distinct_le (hs.meet start f.accesses).1
    have hrest := ih (hs.meet start f.accesses).2 (start + 1)
    simp only [predecessorsFrom, List.flatten_cons, List.length_append, placesTouched,
      placesOnlyRead, List.map_cons, List.sum_cons] at hrest ⊢
    omega

namespace Graph

theorem sum_map_length_eq (xss : List (List Nat)) :
    (xss.map List.length).sum = ∑ a ∈ Finset.range xss.length, (xss[a]?.getD []).length := by
  induction xss with
  | nil => rfl
  | cons xs xss ih =>
    rw [List.length_cons, Finset.sum_range_succ', List.map_cons, List.sum_cons, ih, Nat.add_comm]
    rfl

def edges (g : Graph) : Finset ((_ : ℕ) × ℕ) :=
  (Finset.range g.size).sigma fun a => (Finset.range g.size).filter (g.Edge a)

theorem WellFormed.edgeCount_eq_card {g : Graph} (hg : g.WellFormed) :
    g.edgeCount = g.edges.card := by
  have hsuccs : ∀ a, (Finset.range g.size).filter (g.Edge a) = (g.succsOf a).toFinset := fun a => by
    ext b
    simp only [Finset.mem_filter, Finset.mem_range, List.mem_toFinset, hg.mirrored]
    exact ⟨And.right, fun h => ⟨hg.bounded h, h⟩⟩
  rw [edgeCount, edges, List.length_flatten, sum_map_length_eq, Array.length_toList, hg.sized,
    Finset.card_sigma]
  refine Finset.sum_congr rfl fun a _ => ?_
  rw [hsuccs, List.toFinset_card_of_nodup (hg.nodup_succs a), succsOf, Array.getElem?_toList]

theorem length_flatten_modify_append_le (xss : List (List Nat)) (a b : Nat) :
    (xss.modify a (· ++ [b])).flatten.length ≤ xss.flatten.length + 1 := by
  induction xss generalizing a with
  | nil => simp
  | cons xs xss ih =>
    cases a with
    | zero =>
      simp only [List.modify_zero_cons, List.flatten_cons, List.length_append,
        List.length_singleton]
      omega
    | succ a =>
      have := ih a
      simp only [List.modify_succ_cons, List.flatten_cons, List.length_append]
      omega

theorem length_flatten_note_le (succs : Array (List Nat)) (b : Nat) (ps : List Nat) :
    (note succs b ps).toList.flatten.length ≤ succs.toList.flatten.length + ps.length := by
  induction ps generalizing succs with
  | nil => simp [note]
  | cons p ps ih =>
    have hone := length_flatten_modify_append_le succs.toList p b
    have hrest := ih (succs.modify p (· ++ [b]))
    rw [Array.toList_modify] at hrest
    rw [note, List.foldl_cons, ← note, List.length_cons]
    omega

theorem length_flatten_noteAll_le (succs : Array (List Nat)) (b : Nat) (pss : List (List Nat)) :
    (noteAll succs b pss).toList.flatten.length ≤
      succs.toList.flatten.length + pss.flatten.length := by
  induction pss generalizing succs b with
  | nil => simp [noteAll]
  | cons ps pss ih =>
    have hone := length_flatten_note_le succs b ps
    have hrest := ih (note succs b ps) (b + 1)
    rw [noteAll, List.flatten_cons, List.length_append]
    omega

theorem edgeCount_full_le (fs : List Footprint) :
    (full fs).edgeCount ≤ (predecessors fs).flatten.length := by
  simpa [edgeCount, full] using
    length_flatten_noteAll_le (Array.replicate (predecessors fs).length []) 0 (predecessors fs)

/-- What is counted are the edges. The graph has at most one for every place touched and one more for
every place only read, so at most two for every place touched, however many operations conflict; and a
reduction only cuts edges. -/
theorem edgeCount_build_le (fs : List Footprint) :
    (∀ reduction, (build reduction fs).edgeCount = (build reduction fs).edges.card) ∧
      (build false fs).edgeCount ≤ placesTouched fs + placesOnlyRead fs ∧
      (build false fs).edgeCount ≤ 2 * placesTouched fs ∧
      (build true fs).edgeCount ≤ (build false fs).edgeCount := by
  have hfull : (full fs).edgeCount ≤ placesTouched fs + placesOnlyRead fs := by
    have hpreds := length_flatten_predecessorsFrom_le [] 0 fs
    have hedges := edgeCount_full_le fs
    rw [predecessors] at hedges
    rw [Hazards.standing_nil] at hpreds
    omega
  have hread := placesOnlyRead_le fs
  refine ⟨fun _ => wellFormed_build.edgeCount_eq_card, hfull, ?_, ?_⟩
  · change (full fs).edgeCount ≤ _
    omega
  · have hcut := (wellFormed_full fs).edgeCount_reduce
    change (full fs).reduce.1.edgeCount ≤ (full fs).edgeCount
    omega

/-- A write, two reads and a write of one slot: four places touched, two of them only read. -/
example :
    let use (a : Access) : Footprint := ⟨[⟨⟨0, 0, 8⟩, a⟩], []⟩
    let fs := [use .write, use .read, use .read, use .write]
    placesTouched fs = 4 ∧ placesOnlyRead fs = 2 ∧ (build false fs).edgeCount = 5 := by decide

end Graph

end OpFlow
