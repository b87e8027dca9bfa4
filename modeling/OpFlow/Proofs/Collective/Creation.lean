import OpFlow.Proofs.Collective.Placement
import OpFlow.Proofs.Collective.Scatter
import Mathlib.Data.List.Duplicate

/-!
How an assignment is made, and how devices are looked up in it. The size of the grid is computed as
a machine word before it is compared with anything, so a grid with more places than there are words
ends in a panic. In an assignment that could be made, the device of a place and the place of a
device are inverse to each other, and the index of a place is always a word.
-/
namespace OpFlow

/-! ### Making an assignment -/

namespace DeviceAssignment

variable {replicas computations : Nat} {devices : List DeviceId}

theorem firstRepeated?_eq_none_iff {ds seen : List DeviceId} :
    firstRepeated? seen ds = none ↔ ds.Nodup ∧ ∀ d ∈ ds, d ∉ seen := by
  refine ⟨nodup_of_firstRepeated?, ?_⟩
  induction ds generalizing seen with
  | nil => exact fun _ => rfl
  | cons d ds ih =>
    rintro ⟨hnodup, hfresh⟩
    obtain ⟨hd, hnodup⟩ := List.nodup_cons.1 hnodup
    have hseen : ¬ seen.contains d = true := by simpa using hfresh d List.mem_cons_self
    rw [firstRepeated?, if_neg hseen]
    refine ih ⟨hnodup, fun e he hmem => ?_⟩
    rcases List.mem_cons.1 hmem with rfl | hmem
    · exact hd he
    · exact hfresh e (List.mem_cons_of_mem _ he) hmem

/-- The device that is found stands earlier, in the list or before it. -/
theorem duplicate_of_firstRepeated? {ds seen : List DeviceId} {d : DeviceId}
    (h : firstRepeated? seen ds = some d) : List.Duplicate d ds ∨ d ∈ seen ∧ d ∈ ds := by
  induction ds generalizing seen with
  | nil => cases h
  | cons e ds ih =>
    rw [firstRepeated?] at h
    split at h
    · next he =>
      obtain rfl := Option.some.inj h
      exact .inr ⟨by simpa using he, List.mem_cons_self⟩
    · rcases ih h with hdup | ⟨hseen, hmem⟩
      · exact .inl (hdup.duplicate_cons e)
      · rcases List.mem_cons.1 hseen with rfl | hseen
        · exact .inl (List.Mem.duplicate_cons_self hmem)
        · exact .inr ⟨hseen, List.mem_cons_of_mem _ hmem⟩

/-- All that a request for an assignment can come to. -/
inductive Answers (replicas computations : Nat) (devices : List DeviceId) :
    Except Fault DeviceAssignment → Prop
  | empty {e : Error} (hkind : e.kind = .invalidArgument)
      (h : replicas = 0 ∨ computations = 0) :
      Answers replicas computations devices (.error (.error e))
  | overflow (h : wordSize ≤ replicas * computations) :
      Answers replicas computations devices (.error .overflow)
  | mismatch {e : Error} (hkind : e.kind = .invalidArgument)
      (hfits : replicas * computations < wordSize)
      (h : devices.length ≠ replicas * computations) :
      Answers replicas computations devices (.error (.error e))
  | repeated {e : Error} {d : DeviceId} (hkind : e.kind = .invalidArgument)
      (hfits : replicas * computations < wordSize) (h : List.Duplicate d devices) :
      Answers replicas computations devices (.error (.error e))
  | made (hreplicas : 0 < replicas) (hcomputations : 0 < computations)
      (hfits : replicas * computations < wordSize)
      (hlength : devices.length = replicas * computations) (hnodup : devices.Nodup) :
      Answers replicas computations devices (.ok ⟨replicas, computations, devices⟩)

theorem answers (replicas computations : Nat) (devices : List DeviceId) :
    Answers replicas computations devices (create replicas computations devices) := by
  unfold create
  by_cases hzero : replicas = 0 ∨ computations = 0
  · rw [if_pos hzero]
    exact .empty rfl hzero
  rw [if_neg hzero]
  by_cases hover : wordSize ≤ replicas * computations
  · rw [if_pos hover]
    exact .overflow hover
  have hfits := Nat.lt_of_not_le hover
  rw [if_neg hover]
  by_cases hlength : devices.length ≠ replicas * computations
  · rw [if_pos hlength]
    exact .mismatch rfl hfits hlength
  rw [if_neg hlength]
  cases hrepeated : firstRepeated? [] devices with
  | some d =>
    rcases duplicate_of_firstRepeated? hrepeated with hdup | ⟨hmem, -⟩
    · exact .repeated rfl hfits hdup
    · exact absurd hmem List.not_mem_nil
  | none =>
    rw [not_or] at hzero
    exact .made (Nat.pos_of_ne_zero hzero.1) (Nat.pos_of_ne_zero hzero.2) hfits
      (Decidable.of_not_not hlength) (firstRepeated?_eq_none_iff.1 hrepeated).1

/-- Every request is answered. It ends in a panic exactly when the grid has more places than there
are machine words. Otherwise it gives the grid that was asked for exactly when both counts are
positive, there are as many devices as places and no device comes twice, and in every other case the
error of an invalid argument. -/
theorem create_exact (replicas computations : Nat) (devices : List DeviceId) :
    (create replicas computations devices = .error .overflow ↔
      wordSize ≤ replicas * computations) ∧
    (create replicas computations devices = .ok ⟨replicas, computations, devices⟩ ↔
      0 < replicas ∧ 0 < computations ∧ replicas * computations < wordSize ∧
        devices.length = replicas * computations ∧ devices.Nodup) ∧
    (create replicas computations devices = .error .overflow ∨
      create replicas computations devices = .ok ⟨replicas, computations, devices⟩ ∨
      ∃ e : Error, e.kind = .invalidArgument ∧
        create replicas computations devices = .error (.error e)) := by
  have hpos : ∀ {m n : Nat}, m = 0 ∨ n = 0 → m * n < wordSize := fun h => by
    rw [Nat.mul_eq_zero.2 h]
    exact Nat.pow_pos Nat.two_pos
  have hcases := answers replicas computations devices
  generalize create replicas computations devices = x at hcases ⊢
  cases hcases with
  | empty hkind h =>
    have hnone : ¬ (0 < replicas ∧ 0 < computations) := by omega
    refine ⟨⟨nofun, fun hle => absurd hle (Nat.not_le_of_lt (hpos h))⟩,
      ⟨nofun, fun hgrid => (hnone ⟨hgrid.1, hgrid.2.1⟩).elim⟩, .inr (.inr ⟨_, hkind, rfl⟩)⟩
  | overflow h =>
    exact ⟨⟨fun _ => h, fun _ => rfl⟩,
      ⟨nofun, fun hgrid => absurd h (Nat.not_le_of_lt hgrid.2.2.1)⟩, .inl rfl⟩
  | mismatch hkind hfits h =>
    exact ⟨⟨nofun, fun hle => absurd hle (Nat.not_le_of_lt hfits)⟩,
      ⟨nofun, fun hgrid => absurd hgrid.2.2.2.1 h⟩, .inr (.inr ⟨_, hkind, rfl⟩)⟩
  | repeated hkind hfits h =>
    exact ⟨⟨nofun, fun hle => absurd hle (Nat.not_le_of_lt hfits)⟩,
      ⟨nofun, fun hgrid => absurd hgrid.2.2.2.2 h.not_nodup⟩, .inr (.inr ⟨_, hkind, rfl⟩)⟩
  | made hreplicas hcomputations hfits hlength hnodup =>
    exact ⟨⟨nofun, fun hle => absurd hle (Nat.not_le_of_lt hfits)⟩,
      ⟨fun _ => ⟨hreplicas, hcomputations, hfits, hlength, hnodup⟩, fun _ => rfl⟩, .inr (.inl rfl)⟩

theorem create_panics_of_large :
    4294967296 < wordSize ∧
      create 4294967296 4294967296 [] = .error (.panic "attempt to multiply with overflow") ∧
      ¬ ∃ e : Error, create 4294967296 4294967296 [] = .error (.error e) := by
  have hpanic : create 4294967296 4294967296 [] =
      .error (.panic "attempt to multiply with overflow") := by decide
  refine ⟨by decide, hpanic, ?_⟩
  rintro ⟨e, he⟩
  rw [hpanic] at he
  cases he

end DeviceAssignment

/-! ### Looking up devices -/

namespace DeviceAssignment

variable {a : DeviceAssignment} {replicas computations r c : Nat} {devices : List DeviceId}
  {d : DeviceId}

theorem getOnWords_eq (hfits : a.replicas * a.computations < wordSize) (r c : Nat) :
    a.getOnWords r c = .ok (a.get? r c) := by
  rw [getOnWords, get?]
  by_cases hplace : r < a.replicas ∧ c < a.computations
  · have hindex : r * a.computations + c < wordSize :=
      Nat.lt_trans (IsGrid.index_lt hplace.1 hplace.2) hfits
    have hrow : r * a.computations < wordSize := Nat.lt_of_le_of_lt (Nat.le_add_right _ _) hindex
    rw [if_neg (by omega), if_pos hplace, Word.mul_eq hrow]
    simp only [bind, Except.bind, Word.add_eq hindex, pure, Except.pure]
  · rw [if_pos (by omega), if_neg hplace]

theorem fits_of_create (h : create replicas computations devices = .ok a) :
    replicas * computations < wordSize := by
  have hcases := answers replicas computations devices
  rw [h] at hcases
  cases hcases with
  | made hreplicas hcomputations hfits hlength hnodup => exact hfits

theorem mem_of_logicalId {place : LogicalId} (hplace : a.logicalId d = .ok place) :
    d ∈ a.devices := by
  rw [logicalId] at hplace
  split at hplace
  · next i hi =>
    obtain ⟨hlt, rfl, -⟩ := List.idxOf?_eq_some_iff.1 hi
    exact List.getElem_mem hlt
  · cases hplace

namespace IsGrid

theorem isSome_get?_iff (h : a.IsGrid) :
    (a.get? r c).isSome ↔ r < a.replicas ∧ c < a.computations := by
  rw [Option.isSome_iff_exists]
  constructor
  · rintro ⟨d, hd⟩
    obtain ⟨hr, hc, -⟩ := get?_eq_some_iff.1 hd
    exact ⟨hr, hc⟩
  · rintro ⟨hr, hc⟩
    exact h.exists_get? hr hc

theorem mem_devices_iff (h : a.IsGrid) : d ∈ a.devices ↔ ∃ r c, a.get? r c = some d := by
  refine ⟨h.exists_place, ?_⟩
  rintro ⟨r, c, hd⟩
  obtain ⟨-, -, hget⟩ := get?_eq_some_iff.1 hd
  exact List.mem_of_getElem? hget

theorem get?_eq_some_iff_logicalId (h : a.IsGrid) :
    a.get? r c = some d ↔ a.logicalId d = .ok ⟨r, c⟩ := by
  refine ⟨h.logicalId_of_get?, fun hplace => ?_⟩
  obtain ⟨r', c', hd⟩ := h.exists_place (mem_of_logicalId hplace)
  have heq := (h.logicalId_of_get? hd).symm.trans hplace
  simp only [Except.ok.injEq, LogicalId.mk.injEq] at heq
  rw [← heq.1, ← heq.2]
  exact hd

end IsGrid

/-- In an assignment that was made, a device is at a place exactly if the place is where the device
is found. Every place of the grid has a device and no other place has one, no device has two places,
and the devices that have one are those in the list. The index of a place is computed with words and
no overflow, for all words and beyond. -/
theorem lookup_bijective (h : create replicas computations devices = .ok a) :
    (∀ r c d, a.get? r c = some d ↔ a.logicalId d = .ok ⟨r, c⟩) ∧
    (∀ r c, (a.get? r c).isSome ↔ r < replicas ∧ c < computations) ∧
    (∀ r c r' c' d, a.get? r c = some d → a.get? r' c' = some d → r = r' ∧ c = c') ∧
    (∀ d, d ∈ devices ↔ ∃ r c, a.get? r c = some d) ∧
    ∀ r c, a.getOnWords r c = .ok (a.get? r c) := by
  have hfits := fits_of_create h
  obtain ⟨rfl, hgrid⟩ := isGrid_of_create h
  exact ⟨fun _ _ _ => hgrid.get?_eq_some_iff_logicalId, fun _ _ => hgrid.isSome_get?_iff,
    fun _ _ _ _ _ => hgrid.get?_inj, fun _ => hgrid.mem_devices_iff, getOnWords_eq hfits⟩

theorem lookup_bijective_scattered :
    create 2 3 [⟨14⟩, ⟨3⟩, ⟨-1⟩, ⟨0⟩, ⟨7⟩, ⟨5⟩] =
        .ok ⟨2, 3, [⟨14⟩, ⟨3⟩, ⟨-1⟩, ⟨0⟩, ⟨7⟩, ⟨5⟩]⟩ ∧
      (⟨2, 3, [⟨14⟩, ⟨3⟩, ⟨-1⟩, ⟨0⟩, ⟨7⟩, ⟨5⟩]⟩ : DeviceAssignment).logicalId ⟨7⟩ = .ok ⟨1, 1⟩ := by
  have hmade : create 2 3 [⟨14⟩, ⟨3⟩, ⟨-1⟩, ⟨0⟩, ⟨7⟩, ⟨5⟩] =
      .ok ⟨2, 3, [⟨14⟩, ⟨3⟩, ⟨-1⟩, ⟨0⟩, ⟨7⟩, ⟨5⟩]⟩ := by decide
  exact ⟨hmade, ((lookup_bijective hmade).1 1 1 ⟨7⟩).1 (by decide)⟩

end DeviceAssignment

end OpFlow
