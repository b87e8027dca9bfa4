import Mathlib.Data.List.Pairwise
import OpFlow.Primitive
import OpFlow.Proofs.Collective.Placement

/-!
Membership of devices in the groups of a collective. Every device finds its group and its rank in it
by itself, from its own place in the assignment. When the groups are apart, the devices of a group
find one list of participants, in which each has the place that its rank says, and the lists of
different groups, or of different computations, have no device in common.
-/
namespace OpFlow

def DeviceAssignment.deviceAt (a : DeviceAssignment) (computation replica : Nat) : DeviceId :=
  (a.get? replica computation).getD default

namespace Collective

/-- Groups of `n` replicas, none of them twice in a group or in two groups. -/
structure AreApart (groups : List (List Nat)) (n : Nat) : Prop where
  nodup : ∀ g ∈ groups, g.Nodup
  disjoint : groups.Pairwise List.Disjoint
  lt : ∀ g ∈ groups, ∀ r ∈ g, r < n

def groupsIn (op : Collective) (n : Nat) : List (List Nat) :=
  if op.groups.isEmpty then [List.range n] else op.groups

variable {op : Collective} {info : OpInfo} {n r : Nat} {g g' : List Nat}

namespace AreApart

variable {groups : List (List Nat)}

theorem eq_of_mem (h : AreApart groups n) (hg : g ∈ groups) (hg' : g' ∈ groups) (hr : r ∈ g)
    (hr' : r ∈ g') : g = g' := by
  have : Std.Symm fun g g' : List Nat => g.Disjoint g' := ⟨fun _ _ hd _ hl hr => hd hr hl⟩
  by_contra hne
  exact h.disjoint.forall hg hg' hne hr hr'

theorem find?_contains (h : AreApart groups n) (hg : g ∈ groups) (hr : r ∈ g) :
    (groups.find? fun g => g.contains r) = some g := by
  cases hfind : groups.find? fun g => g.contains r with
  | none => exact absurd (List.contains_iff_mem.2 hr) (List.find?_eq_none.1 hfind g hg)
  | some g' =>
    have hr' : g'.contains r := List.find?_some (p := fun g : List Nat => g.contains r) hfind
    rw [h.eq_of_mem hg (List.mem_of_find?_eq_some hfind) hr (List.contains_iff_mem.1 hr')]

theorem groupsIn (h : AreApart op.groups n) : AreApart (op.groupsIn n) n := by
  rw [Collective.groupsIn]
  split
  · exact ⟨by simp [List.nodup_range], by simp, by simp⟩
  · exact h

end AreApart

theorem groupOf_of_mem {a : DeviceAssignment} (h : AreApart op.groups a.replicas)
    (hg : g ∈ op.groupsIn a.replicas) (hr : r ∈ g) : op.groupOf info a r = .ok g := by
  rw [groupOf]
  rw [groupsIn] at hg
  split
  · next hempty =>
    rw [if_pos hempty, List.mem_singleton] at hg
    rw [hg]
  · next hempty =>
    rw [if_neg hempty] at hg
    rw [h.find?_contains hg hr]

/-- A replica that is in no group is told so. -/
theorem groupOf_of_forall_not_mem {a : DeviceAssignment} (info : OpInfo) (hr : r < a.replicas)
    (h : ∀ g ∈ op.groupsIn a.replicas, r ∉ g) :
    ∃ text, op.groupOf info a r = .error (.configuration text) := by
  rw [groupOf]
  rw [groupsIn] at h
  split
  · next hempty =>
    rw [if_pos hempty] at h
    exact absurd (List.mem_range.2 hr) (h _ List.mem_cons_self)
  · next hempty =>
    rw [if_neg hempty] at h
    have hnone : (op.groups.find? fun g => g.contains r) = none :=
      List.find?_eq_none.2 fun g hg => by simpa using h g hg
    rw [hnone]
    exact ⟨_, rfl⟩

end Collective

namespace DeviceAssignment.IsGrid

variable {a : DeviceAssignment} {r r' c c' : Nat} {g g' : List Nat}

theorem get?_eq_deviceAt (h : a.IsGrid) (hr : r < a.replicas) (hc : c < a.computations) :
    a.get? r c = some (a.deviceAt c r) := by
  obtain ⟨d, hd⟩ := h.exists_get? hr hc
  rw [deviceAt, hd, Option.getD_some]

theorem mapM_deviceOf (h : a.IsGrid) (hc : c < a.computations) (hg : ∀ r ∈ g, r < a.replicas) :
    g.mapM (Collective.deviceOf a c) = .ok (g.map (a.deviceAt c)) := by
  induction g with
  | nil => rfl
  | cons r g ih =>
    obtain ⟨hr, hrest⟩ := List.forall_mem_cons.1 hg
    have hdevice : Collective.deviceOf a c r = .ok (a.deviceAt c r) := by
      rw [Collective.deviceOf, h.get?_eq_deviceAt hr hc]
    rw [List.mapM_cons, hdevice, ih hrest]
    rfl

theorem disjoint_map_deviceAt (h : a.IsGrid) (hc : c < a.computations) (hc' : c' < a.computations)
    (hg : ∀ r ∈ g, r < a.replicas) (hg' : ∀ r ∈ g', r < a.replicas)
    (hapart : g.Disjoint g' ∨ c ≠ c') :
    (g.map (a.deviceAt c)).Disjoint (g'.map (a.deviceAt c')) := by
  intro d hd hd'
  obtain ⟨r, hr, rfl⟩ := List.mem_map.1 hd
  obtain ⟨r', hr', heq⟩ := List.mem_map.1 hd'
  have hget := h.get?_eq_deviceAt (hg r hr) hc
  have hget' := h.get?_eq_deviceAt (hg' r' hr') hc'
  rw [heq] at hget'
  obtain ⟨rfl, rfl⟩ := h.get?_inj hget hget'
  exact hapart.elim (fun hdisjoint => hdisjoint hr hr') fun hne => hne rfl

end DeviceAssignment.IsGrid

namespace Collective

section

variable {op : Collective} {info : OpInfo} {a : DeviceAssignment} {ctx : CollectiveContext}
  {r c : Nat} {g : List Nat}

theorem idxOf?_of_mem {α : Type} [DecidableEq α] {l : List α} {x : α} (hx : x ∈ l) :
    l.idxOf? x = some (l.idxOf x) := by
  obtain ⟨i, hi⟩ := Option.isSome_iff_exists.1 (List.isSome_idxOf?.2 hx)
  rw [List.idxOf_eq_getD_idxOf?, hi, Option.getD_some]

theorem membership_of_mem (hctx : ctx.assignment = a) (ha : a.IsGrid)
    (hop : AreApart op.groups a.replicas) (hd : a.get? r c = some ctx.device)
    (hg : g ∈ op.groupsIn a.replicas) (hr : r ∈ g) :
    op.membership info ctx = .ok ⟨g.map (a.deviceAt c), g.idxOf r, c⟩ := by
  obtain ⟨-, hc, -⟩ := DeviceAssignment.IsGrid.get?_eq_some_iff.1 hd
  have hrank := idxOf?_of_mem hr
  rw [membership, hctx, ha.logicalId_of_get? hd]
  simp only [bind, Except.bind, groupOf_of_mem hop hg hr,
    ha.mapM_deviceOf hc (hop.groupsIn.lt g hg), hrank]
  rfl

theorem membership_of_forall_not_mem (info : OpInfo) (hctx : ctx.assignment = a) (ha : a.IsGrid)
    (hd : a.get? r c = some ctx.device) (h : ∀ g ∈ op.groupsIn a.replicas, r ∉ g) :
    ∃ text, op.membership info ctx = .error (.configuration text) := by
  obtain ⟨hr, -, -⟩ := DeviceAssignment.IsGrid.get?_eq_some_iff.1 hd
  obtain ⟨text, htext⟩ := groupOf_of_forall_not_mem info hr h
  refine ⟨text, ?_⟩
  rw [membership, hctx, ha.logicalId_of_get? hd]
  simp only [bind, Except.bind, htext]

end

theorem kind_exchangeIn (op : Collective) (a : DeviceAssignment) (m : Membership) :
    (op.exchangeIn a m).kind = op.exchange.kind := by
  unfold exchangeIn
  split
  · next h => rw [h]; rfl
  · rfl

def memberAt? (op : Collective) (info : OpInfo) (a : DeviceAssignment)
    (ctx : DeviceId → CollectiveContext) (computation replica : Nat) : Option Membership :=
  (a.get? replica computation).bind fun d => (op.membership info (ctx d)).toOption

/-- The devices of an assignment agree on the groups of a collective. -/
structure Agree (op : Collective) (info : OpInfo) (a : DeviceAssignment)
    (ctx : DeviceId → CollectiveContext) : Prop where
  /-- Every device has a place, so the fields that speak of places speak of every device. -/
  placed : ∀ d ∈ a.devices, ∃ r c, a.get? r c = some d
  /-- Devices of one group and one computation find one list of participants. -/
  same : ∀ g ∈ op.groupsIn a.replicas, ∀ r ∈ g, ∀ r' ∈ g, ∀ c d d',
    a.get? r c = some d → a.get? r' c = some d' →
      ∃ m m', op.membership info (ctx d) = .ok m ∧ op.membership info (ctx d') = .ok m' ∧
        m.devices = m'.devices
  /-- The rank that a device finds is its own place in the list. -/
  own : ∀ d ∈ a.devices, ∀ m, op.membership info (ctx d) = .ok m → m.devices[m.rank]? = some d
  /-- The members of a group have the ranks from zero on, each of them once. -/
  ranks : ∀ g ∈ op.groupsIn a.replicas, ∀ c < a.computations,
    (g.filterMap (op.memberAt? info a ctx c)).map Membership.rank = List.range g.length ∧
      ∀ m ∈ g.filterMap (op.memberAt? info a ctx c), m.devices.length = g.length
  /-- Devices of different groups, or of different computations, find lists that are apart. -/
  apart : ∀ g ∈ op.groupsIn a.replicas, ∀ g' ∈ op.groupsIn a.replicas, ∀ r ∈ g, ∀ r' ∈ g',
    ∀ c c' d d' m m', a.get? r c = some d → a.get? r' c' = some d' → (g ≠ g' ∨ c ≠ c') →
      op.membership info (ctx d) = .ok m → op.membership info (ctx d') = .ok m' →
        m.devices.Disjoint m'.devices
  /-- A device in no group is refused. -/
  outside : ∀ r c d, a.get? r c = some d → (∀ g ∈ op.groupsIn a.replicas, r ∉ g) →
    ∃ text, op.membership info (ctx d) = .error (.configuration text)

section

variable {op : Collective} {info : OpInfo} {a : DeviceAssignment}
  {ctx : DeviceId → CollectiveContext} {r c : Nat} {d : DeviceId} {g : List Nat}

theorem membership_at (ha : a.IsGrid) (hop : AreApart op.groups a.replicas)
    (hctx : ∀ d, (ctx d).device = d ∧ (ctx d).assignment = a) (hd : a.get? r c = some d)
    (hg : g ∈ op.groupsIn a.replicas) (hr : r ∈ g) :
    op.membership info (ctx d) = .ok ⟨g.map (a.deviceAt c), g.idxOf r, c⟩ :=
  membership_of_mem (hctx d).2 ha hop ((hctx d).1.symm ▸ hd) hg hr

theorem filterMap_memberAt? (ha : a.IsGrid) (hop : AreApart op.groups a.replicas)
    (hctx : ∀ d, (ctx d).device = d ∧ (ctx d).assignment = a) (hc : c < a.computations)
    (hg : g ∈ op.groupsIn a.replicas) :
    g.filterMap (op.memberAt? info a ctx c) =
      g.map fun r => ⟨g.map (a.deviceAt c), g.idxOf r, c⟩ := by
  rw [← List.filterMap_eq_map']
  refine List.filterMap_congr fun r hr => ?_
  have hd := ha.get?_eq_deviceAt (hop.groupsIn.lt g hg r hr) hc
  rw [memberAt?, hd, Option.bind_some, membership_at ha hop hctx hd hg hr]
  rfl

theorem map_idxOf_self (hg : g.Nodup) : g.map g.idxOf = List.range g.length := by
  refine List.ext_getElem (by simp) fun i hi hi' => ?_
  rw [List.getElem_map, List.getElem_range, hg.idxOf_getElem]

/-- In every assignment that could be made, the devices agree on groups that are apart. -/
theorem agree_of_create {replicas computations : Nat} {devices : List DeviceId}
    (hmade : DeviceAssignment.create replicas computations devices = .ok a)
    (hop : AreApart op.groups replicas) (info : OpInfo)
    (hctx : ∀ d, (ctx d).device = d ∧ (ctx d).assignment = a) : op.Agree info a ctx := by
  obtain ⟨hgrid, ha⟩ := DeviceAssignment.isGrid_of_create hmade
  have hreplicas : a.replicas = replicas := by rw [hgrid]
  subst hreplicas
  constructor
  case placed => exact fun d hd => ha.exists_place hd
  case same =>
    intro g hg r hr r' hr' c d d' hd hd'
    exact ⟨_, _, membership_at ha hop hctx hd hg hr, membership_at ha hop hctx hd' hg hr', rfl⟩
  case own =>
    intro d hmem m hm
    obtain ⟨r, c, hd⟩ := ha.exists_place hmem
    by_cases hin : ∃ g ∈ op.groupsIn a.replicas, r ∈ g
    · obtain ⟨g, hg, hr⟩ := hin
      obtain rfl := Except.ok.inj ((membership_at ha hop hctx hd hg hr).symm.trans hm)
      have hself : a.deviceAt c r = d := by rw [DeviceAssignment.deviceAt, hd, Option.getD_some]
      rw [List.getElem?_map, List.getElem?_eq_getElem (List.idxOf_lt_length_iff.2 hr),
        List.getElem_idxOf, Option.map_some, hself]
    · obtain ⟨text, htext⟩ := membership_of_forall_not_mem info (hctx d).2 ha
        ((hctx d).1.symm ▸ hd) fun g hg hr => hin ⟨g, hg, hr⟩
      rw [htext] at hm
      cases hm
  case ranks =>
    intro g hg c hc
    rw [filterMap_memberAt? ha hop hctx hc hg, List.map_map]
    refine ⟨map_idxOf_self (hop.groupsIn.nodup g hg), fun m hm => ?_⟩
    obtain ⟨r, -, rfl⟩ := List.mem_map.1 hm
    exact List.length_map _
  case apart =>
    intro g hg g' hg' r hr r' hr' c c' d d' m m' hd hd' hapart hm hm'
    obtain rfl := Except.ok.inj ((membership_at ha hop hctx hd hg hr).symm.trans hm)
    obtain rfl := Except.ok.inj ((membership_at ha hop hctx hd' hg' hr').symm.trans hm')
    obtain ⟨-, hc, -⟩ := DeviceAssignment.IsGrid.get?_eq_some_iff.1 hd
    obtain ⟨-, hc', -⟩ := DeviceAssignment.IsGrid.get?_eq_some_iff.1 hd'
    refine ha.disjoint_map_deviceAt hc hc' (hop.groupsIn.lt g hg) (hop.groupsIn.lt g' hg') ?_
    refine hapart.imp_left fun hne k hk hk' => hne (hop.groupsIn.eq_of_mem hg hg' hk hk')
  case outside =>
    exact fun r c d hd h => membership_of_forall_not_mem info (hctx d).2 ha ((hctx d).1.symm ▸ hd) h

end

def scattered : DeviceAssignment :=
  ⟨5, 2, [⟨7⟩, ⟨0⟩, ⟨3⟩, ⟨9⟩, ⟨1⟩, ⟨-4⟩, ⟨8⟩, ⟨2⟩, ⟨6⟩, ⟨5⟩]⟩

def crossed : Collective :=
  { (default : Collective) with groups := [[2, 0], [1, 3]] }

theorem agree_of_create_scattered :
    DeviceAssignment.create 5 2 scattered.devices = .ok scattered ∧ AreApart crossed.groups 5 ∧
      crossed.Agree default scattered fun d => ⟨default, 0, d, scattered⟩ := by
  have hmade : DeviceAssignment.create 5 2 scattered.devices = .ok scattered := by decide
  have hapart : AreApart crossed.groups 5 :=
    ⟨by decide, by simp [crossed, List.Disjoint], by decide⟩
  exact ⟨hmade, hapart, agree_of_create hmade hapart default fun d => ⟨rfl, rfl⟩⟩

end Collective

end OpFlow
