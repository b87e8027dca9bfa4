import Mathlib.Data.List.Nodup
import OpFlow.Collective.Assignment

/-!
Placements of devices. An assignment that could be made is a grid of distinct devices: every device
has one place in it, every place has one device, and the two ways to look it up agree.
-/
namespace OpFlow

namespace DeviceAssignment

structure IsGrid (a : DeviceAssignment) : Prop where
  length : a.devices.length = a.replicas * a.computations
  nodup : a.devices.Nodup

theorem nodup_of_firstRepeated? {ds seen : List DeviceId}
    (h : firstRepeated? seen ds = none) : ds.Nodup ∧ ∀ d ∈ ds, d ∉ seen := by
  induction ds generalizing seen with
  | nil => simp
  | cons d ds ih =>
    rw [firstRepeated?] at h
    split at h
    · cases h
    · next hd =>
      obtain ⟨hnodup, hfresh⟩ := ih h
      refine ⟨List.nodup_cons.2 ⟨fun hmem => hfresh d hmem List.mem_cons_self, hnodup⟩, ?_⟩
      intro e he hseen
      rcases List.mem_cons.1 he with rfl | he
      · exact hd (by simpa using hseen)
      · exact hfresh e he (List.mem_cons_of_mem _ hseen)

/-- Whatever assignment is made is the grid that was asked for. -/
theorem isGrid_of_create {replicas computations : Nat} {devices : List DeviceId}
    {a : DeviceAssignment} (h : create replicas computations devices = .ok a) :
    a = ⟨replicas, computations, devices⟩ ∧ a.IsGrid := by
  unfold create at h
  split at h
  · cases h
  · split at h
    · cases h
    · split at h
      · cases h
      · next hlength =>
        split at h
        · cases h
        · next hnone =>
          simp only [Except.ok.injEq] at h
          subst h
          exact ⟨rfl, Decidable.of_not_not hlength, (nodup_of_firstRepeated? hnone).1⟩

namespace IsGrid

variable {a : DeviceAssignment} {r r' c c' : Nat} {d : DeviceId}

theorem index_lt (hr : r < a.replicas) (hc : c < a.computations) :
    r * a.computations + c < a.replicas * a.computations := by
  have hrow : (r + 1) * a.computations ≤ a.replicas * a.computations := Nat.mul_le_mul_right _ hr
  rw [Nat.succ_mul] at hrow
  omega

theorem index_div_mod (r : Nat) {n : Nat} (hc : c < n) :
    (r * n + c) / n = r ∧ (r * n + c) % n = c := by
  rw [Nat.mul_comm, Nat.mul_add_div (Nat.zero_lt_of_lt hc), Nat.div_eq_of_lt hc, Nat.mul_add_mod,
    Nat.mod_eq_of_lt hc]
  exact ⟨rfl, rfl⟩

theorem get?_eq_some_iff : a.get? r c = some d ↔
    r < a.replicas ∧ c < a.computations ∧ a.devices[r * a.computations + c]? = some d := by
  rw [get?]
  split
  · next h => simp [h]
  · next h => simpa using fun hr hc _ => h ⟨hr, hc⟩

theorem exists_get? (h : a.IsGrid) (hr : r < a.replicas) (hc : c < a.computations) :
    ∃ d, a.get? r c = some d := by
  have hlt : r * a.computations + c < a.devices.length := h.length ▸ index_lt hr hc
  exact ⟨_, get?_eq_some_iff.2 ⟨hr, hc, List.getElem?_eq_getElem hlt⟩⟩

theorem get?_inj (h : a.IsGrid) (hd : a.get? r c = some d) (hd' : a.get? r' c' = some d) :
    r = r' ∧ c = c' := by
  obtain ⟨-, hc, hget⟩ := get?_eq_some_iff.1 hd
  obtain ⟨-, hc', hget'⟩ := get?_eq_some_iff.1 hd'
  obtain ⟨hlt, heq⟩ := List.getElem?_eq_some_iff.1 hget
  obtain ⟨hlt', heq'⟩ := List.getElem?_eq_some_iff.1 hget'
  have hindex := h.nodup.getElem_inj_iff.1 (heq.trans heq'.symm)
  obtain ⟨hdiv, hmod⟩ := index_div_mod r hc
  obtain ⟨hdiv', hmod'⟩ := index_div_mod r' hc'
  rw [hindex] at hdiv hmod
  exact ⟨hdiv.symm.trans hdiv', hmod.symm.trans hmod'⟩

theorem exists_place (h : a.IsGrid) (hd : d ∈ a.devices) : ∃ r c, a.get? r c = some d := by
  obtain ⟨i, hi, rfl⟩ := List.mem_iff_getElem.1 hd
  rw [h.length] at hi
  have hpos : 0 < a.computations := Nat.pos_of_lt_mul_left hi
  refine ⟨i / a.computations, i % a.computations, get?_eq_some_iff.2
    ⟨Nat.div_lt_of_lt_mul (Nat.mul_comm _ a.computations ▸ hi), Nat.mod_lt _ hpos, ?_⟩⟩
  rw [Nat.div_add_mod', List.getElem?_eq_getElem]

theorem logicalId_of_get? (h : a.IsGrid) (hd : a.get? r c = some d) :
    a.logicalId d = .ok ⟨r, c⟩ := by
  obtain ⟨-, hc, hget⟩ := get?_eq_some_iff.1 hd
  obtain ⟨hlt, heq⟩ := List.getElem?_eq_some_iff.1 hget
  have hidx : a.devices.idxOf? d = some (r * a.computations + c) := by
    refine List.idxOf?_eq_some_iff.2 ⟨hlt, heq, fun j hj hdj => ?_⟩
    exact absurd (h.nodup.getElem_inj_iff.1 (hdj.trans heq.symm)) (Nat.ne_of_lt hj)
  obtain ⟨hdiv, hmod⟩ := index_div_mod r hc
  simp only [logicalId, hidx, hdiv, hmod]

end IsGrid

end DeviceAssignment

end OpFlow
