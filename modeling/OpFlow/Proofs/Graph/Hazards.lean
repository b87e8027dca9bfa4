import OpFlow.Graph
import Mathlib.Data.Nat.Basic
import Mathlib.Order.Basic

/-!
Hazard tracking orders every conflict. For each place the tracked state covers all earlier accesses:
each is the last writer, a reader since, or already ordered before the last writer. So an operation
that waits for what the state names waits, directly or through others, for every earlier operation
with which it conflicts, and for no other.
-/
namespace OpFlow

namespace Footprint

theorem conflicts_iff {f g : Footprint} :
    f.conflicts g ↔ ∃ p, p ∈ f.places ∧ p ∈ g.places ∧ (f.writes p ∨ g.writes p) := by
  rw [conflicts_eq_touches]
  simp only [List.any_eq_true, Bool.and_eq_true, beq_iff_eq, mem_places, writes_iff]
  constructor
  · rintro ⟨⟨p, a⟩, hs, ⟨q, b⟩, ht, rfl, hc⟩
    refine ⟨p, ⟨a, hs⟩, ⟨b, ht⟩, ?_⟩
    cases a <;> cases b <;> simp_all [Access.conflicts, Access.isWrite]
  · rintro ⟨p, ⟨a, hs⟩, ⟨b, ht⟩, hw | hw⟩
    · exact ⟨_, hw, _, ht, rfl, by simp [Access.conflicts, Access.isWrite]⟩
    · exact ⟨_, hs, _, hw, rfl, by simp [Access.conflicts, Access.isWrite]⟩

end Footprint

namespace Hazards

section Meet

variable {hs : Hazards} {i a : Nat} {as : List (Place × Access)} {p : Place}

theorem get_meet_of_not_mem (hp : p ∉ as.map Prod.fst) : (hs.meet i as).2.get p = hs.get p := by
  induction as generalizing hs with
  | nil => rfl
  | cons t rest ih =>
    obtain ⟨hne, hrest⟩ : p ≠ t.1 ∧ p ∉ rest.map Prod.fst := by simpa using hp
    rw [meet, ih hrest, get_set_of_ne _ _ (Ne.symm hne)]

theorem get_meet_of_mem {x : Access} (has : (as.map Prod.fst).Nodup) (hp : (p, x) ∈ as) :
    (hs.meet i as).2.get p = (hs.get p).touched i x.isWrite := by
  induction as generalizing hs with
  | nil => cases hp
  | cons t rest ih =>
    obtain ⟨ht, hrest⟩ := List.nodup_cons.1 has
    rcases List.mem_cons.1 hp with rfl | hp
    · rw [meet, get_meet_of_not_mem ht, get_set_self]
    · have hne : t.1 ≠ p := fun h => ht (h ▸ List.mem_map_of_mem hp)
      rw [meet, ih hrest hp, get_set_of_ne _ _ hne]

theorem mem_awaited_meet (has : (as.map Prod.fst).Nodup) :
    a ∈ (hs.meet i as).1 ↔ ∃ t ∈ as, a ∈ (hs.get t.1).awaited t.2.isWrite := by
  induction as generalizing hs with
  | nil => simp [meet]
  | cons t rest ih =>
    obtain ⟨ht, hrest⟩ := List.nodup_cons.1 has
    have hothers : ∀ u ∈ rest, ∀ h, (hs.set t.1 h).get u.1 = hs.get u.1 := fun u hu h =>
      get_set_of_ne _ _ fun he => ht (he ▸ List.mem_map_of_mem hu)
    simp only [meet, List.mem_append, ih hrest, List.mem_cons, or_and_right, exists_or, exists_eq_left]
    refine or_congr_right (exists_congr fun u => and_congr_right fun hu => ?_)
    rw [hothers u hu]

end Meet

theorem mem_awaited {hs : Hazards} {i : Nat} {f : Footprint} {a : Nat} :
    a ∈ (hs.meet i f.accesses).1 ↔ ∃ p ∈ f.places, (hs.get p).lastWriter = some a ∨
      f.writes p ∧ a ∈ (hs.get p).readers := by
  have hone : ∀ t ∈ f.accesses, (a ∈ (hs.get t.1).awaited t.2.isWrite ↔
      (hs.get t.1).lastWriter = some a ∨ f.writes t.1 ∧ a ∈ (hs.get t.1).readers) := by
    intro t ht
    rw [Footprint.isWrite_of_mem_accesses ht, Hazard.awaited, List.mem_append, Option.mem_toList]
    refine or_congr_right ?_
    cases f.writes t.1 <;> simp
  rw [mem_awaited_meet f.nodup_places, Footprint.places]
  constructor
  · rintro ⟨t, ht, ha⟩
    exact ⟨t.1, List.mem_map_of_mem ht, (hone t ht).1 ha⟩
  · rintro ⟨p, hp, ha⟩
    obtain ⟨t, ht, rfl⟩ := List.mem_map.1 hp
    exact ⟨t, ht, (hone t ht).2 ha⟩

theorem get_meet (hs : Hazards) (i : Nat) (f : Footprint) (p : Place) :
    (hs.meet i f.accesses).2.get p =
      if p ∈ f.places then (hs.get p).touched i (f.writes p) else hs.get p := by
  split
  case isTrue hp =>
    obtain ⟨⟨q, x⟩, ht, rfl⟩ := List.mem_map.1 hp
    rw [get_meet_of_mem f.nodup_places ht, Footprint.isWrite_of_mem_accesses ht]
  case isFalse hp => exact get_meet_of_not_mem hp

/-- The hazards once operations with these footprints, the first of them number `start`, have
passed. -/
def past (hs : Hazards) (start : Nat) : List Footprint → Hazards
  | [] => hs
  | f :: fs => past (hs.meet start f.accesses).2 (start + 1) fs

theorem past_append (hs : Hazards) (start : Nat) (fs gs : List Footprint) :
    hs.past start (fs ++ gs) = (hs.past start fs).past (start + fs.length) gs := by
  induction fs generalizing hs start with
  | nil => rfl
  | cons f fs ih => simp [past, ih, Nat.add_assoc, Nat.add_comm 1]

/-- The hazards that operation `j` of a sequence meets. -/
def before (fs : List Footprint) (j : Nat) : Hazards := past [] 0 (fs.take j)

theorem before_succ {fs : List Footprint} {j : Nat} {f : Footprint} (hf : fs[j]? = some f) :
    before fs (j + 1) = ((before fs j).meet j f.accesses).2 := by
  have hj : j < fs.length := (List.getElem?_eq_some_iff.1 hf).1
  rw [before, List.take_add_one, hf, past_append]
  simp [past, before, Nat.min_eq_left hj.le]

end Hazards

theorem getElem?_predecessorsFrom (hs : Hazards) (start : Nat) (fs : List Footprint) (j : Nat) :
    (predecessorsFrom hs start fs)[j]? = fs[j]?.map fun f =>
      distinct ((hs.past start (fs.take j)).meet (start + j) f.accesses).1 := by
  induction fs generalizing hs start j with
  | nil => simp [predecessorsFrom]
  | cons f fs ih =>
    cases j with
    | zero => simp [predecessorsFrom, Hazards.past]
    | succ j => simp [predecessorsFrom, ih, Hazards.past, Nat.add_assoc, Nat.add_comm 1]

namespace Graph

theorem edge_full_iff {fs : List Footprint} {a b : Nat} : (full fs).Edge a b ↔
    ∃ f, fs[b]? = some f ∧ a ∈ ((Hazards.before fs b).meet b f.accesses).1 := by
  simp only [Edge, predsOf, full, predecessors, List.getElem?_toArray, getElem?_predecessorsFrom]
  cases fs[b]? <;> simp [Hazards.before]

theorem Reaches.trans {g : Graph} {a b c : Nat} (hab : g.Reaches a b) (hbc : g.Reaches b c) :
    g.Reaches a c := by
  induction hbc with
  | edge h => exact hab.tail h
  | tail _ h ih => exact ih.tail h

theorem Reaches.mono {g g' : Graph} (h : ∀ a b, g.Edge a b → g'.Reaches a b) {a b : Nat}
    (hab : g.Reaches a b) : g'.Reaches a b := by
  induction hab with
  | edge he => exact h _ _ he
  | tail _ he ih => exact ih.trans (h _ _ he)

theorem Reaches.lt {g : Graph} (h : ∀ a b, g.Edge a b → a < b) {a b : Nat}
    (hab : g.Reaches a b) : a < b := by
  induction hab with
  | edge he => exact h _ _ he
  | tail _ he ih => exact ih.trans (h _ _ he)

end Graph

/-- A hazard state of place `p` that covers the first `m` operations. -/
structure Hazard.Covers (fs : List Footprint) (p : Place) (m : Nat) (h : Hazard) : Prop where
  writer : ∀ w, h.lastWriter = some w → ∃ f, fs[w]? = some f ∧ f.writes p
  readers : ∀ r ∈ h.readers, ∃ f, fs[r]? = some f ∧ p ∈ f.places
  earlier : ∀ w, w ∈ h.lastWriter ∨ w ∈ h.readers → w < m
  /-- Every access is named, or ordered before the last writer. -/
  covered : ∀ i < m, ∀ f, fs[i]? = some f → p ∈ f.places →
    (i ∈ h.readers ∧ f.writes p = false) ∨
      ∃ w, h.lastWriter = some w ∧ (i = w ∨ (Graph.full fs).Reaches i w)

theorem Footprint.mem_places_of_writes {f : Footprint} {p : Place} (h : f.writes p) :
    p ∈ f.places := mem_places.2 ⟨_, writes_iff.1 h⟩

namespace Hazards

theorem covers_before (fs : List Footprint) (p : Place) {m : Nat} (hm : m ≤ fs.length) :
    ((before fs m).get p).Covers fs p m := by
  induction m with
  | zero => exact ⟨by simp [before, past, get], by simp [before, past, get],
      by simp [before, past, get], by simp⟩
  | succ m ih =>
    have hc := ih (by omega)
    obtain ⟨f, hf⟩ : ∃ f, fs[m]? = some f := ⟨_, List.getElem?_eq_getElem (by omega)⟩
    have edge : ∀ a, p ∈ f.places → ((before fs m).get p).lastWriter = some a ∨
        f.writes p ∧ a ∈ ((before fs m).get p).readers → (Graph.full fs).Edge a m :=
      fun a hp ha => Graph.edge_full_iff.2 ⟨f, hf, mem_awaited.2 ⟨p, hp, ha⟩⟩
    rw [before_succ hf, get_meet]
    split
    case isFalse hp =>
      refine ⟨hc.writer, hc.readers, fun w hw => (hc.earlier w hw).trans (by omega), ?_⟩
      intro i hi g hg hpg
      rcases Nat.lt_succ_iff_lt_or_eq.1 hi with hi | rfl
      · exact hc.covered i hi g hg hpg
      · exact absurd (by simp_all) hp
    case isTrue hp =>
      cases hw : f.writes p with
      | true =>
        refine ⟨?_, by simp [Hazard.touched], by simp [Hazard.touched], ?_⟩
        · rintro w hw'
          simp only [Hazard.touched, if_true, Option.some.injEq] at hw'
          exact ⟨f, hw' ▸ hf, hw⟩
        · intro i hi g hg hpg
          refine .inr ⟨m, rfl, ?_⟩
          rcases Nat.lt_succ_iff_lt_or_eq.1 hi with hi | rfl
          · right
            rcases hc.covered i hi g hg hpg with ⟨hr, -⟩ | ⟨w, hlast, rfl | hreach⟩
            · exact .edge (edge i hp (.inr ⟨hw, hr⟩))
            · exact .edge (edge i hp (.inl hlast))
            · exact hreach.tail (edge w hp (.inl hlast))
          · exact .inl rfl
      | false =>
        simp only [Hazard.touched, Bool.false_eq_true, if_false]
        refine ⟨hc.writer, ?_, ?_, ?_⟩
        · intro r hr
          rcases List.mem_append.1 hr with hr | hr
          · exact hc.readers r hr
          · exact ⟨f, by simp_all, hp⟩
        · rintro w (hw' | hw')
          · exact (hc.earlier w (.inl hw')).trans (by omega)
          · rcases List.mem_append.1 hw' with hw' | hw'
            · exact (hc.earlier w (.inr hw')).trans (by omega)
            · simp_all
        · intro i hi g hg hpg
          rcases Nat.lt_succ_iff_lt_or_eq.1 hi with hi | rfl
          · exact (hc.covered i hi g hg hpg).imp (fun h => ⟨List.mem_append_left _ h.1, h.2⟩) id
          · exact .inl ⟨by simp, by simp_all⟩

end Hazards

namespace Graph

variable {fs : List Footprint} {a b : Nat} {f g : Footprint}

theorem conflicts_of_edge_full (h : (full fs).Edge a b) :
    a < b ∧ ∃ f g, fs[a]? = some f ∧ fs[b]? = some g ∧ f.conflicts g := by
  obtain ⟨g, hg, ha⟩ := edge_full_iff.1 h
  have hb : b < fs.length := (List.getElem?_eq_some_iff.1 hg).1
  obtain ⟨p, hp, hlast | ⟨hw, hr⟩⟩ := Hazards.mem_awaited.1 ha
  · have hcov := Hazards.covers_before fs p hb.le
    obtain ⟨f, hf, hw⟩ := hcov.writer a hlast
    exact ⟨hcov.earlier a (.inl hlast), f, g, hf, hg,
      Footprint.conflicts_iff.2 ⟨p, Footprint.mem_places_of_writes hw, hp, .inl hw⟩⟩
  · have hcov := Hazards.covers_before fs p hb.le
    obtain ⟨f, hf, hpf⟩ := hcov.readers a hr
    exact ⟨hcov.earlier a (.inr hr), f, g, hf, hg,
      Footprint.conflicts_iff.2 ⟨p, hpf, hp, .inr hw⟩⟩

theorem reaches_full_of_conflicts (hab : a < b) (hf : fs[a]? = some f) (hg : fs[b]? = some g)
    (h : f.conflicts g) : (full fs).Reaches a b := by
  have hb : b < fs.length := (List.getElem?_eq_some_iff.1 hg).1
  obtain ⟨p, hpf, hpg, hw⟩ := Footprint.conflicts_iff.1 h
  have edge : ∀ c, ((Hazards.before fs b).get p).lastWriter = some c ∨
      g.writes p ∧ c ∈ ((Hazards.before fs b).get p).readers → (full fs).Edge c b :=
    fun c hcp => edge_full_iff.2 ⟨g, hg, Hazards.mem_awaited.2 ⟨p, hpg, hcp⟩⟩
  have hcov := Hazards.covers_before fs p hb.le
  rcases hcov.covered a hab f hf hpf with ⟨hr, hread⟩ | ⟨w, hlast, rfl | hreach⟩
  · exact .edge (edge a (.inr ⟨by simpa [hread] using hw, hr⟩))
  · exact .edge (edge a (.inl hlast))
  · exact hreach.tail (edge w (.inl hlast))

end Graph

end OpFlow
