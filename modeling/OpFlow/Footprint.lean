import OpFlow.Resource
import OpFlow.Sorted

/-!
Footprints: everything an operation declares to touch. Two footprints conflict when some use of one
conflicts with some use of the other; this is the same as touching a common place that one of them
writes. For hazards the uses of one place count as one access, which writes if any of them does.
-/
namespace OpFlow

structure Footprint where
  buffers : List BufferUse := []
  resources : List ResourceUse := []
  deriving DecidableEq, Repr, Inhabited

inductive Place
  | slot (index : Nat)
  | resource (id : Nat)
  deriving DecidableEq, Repr, Inhabited

namespace Place

/-- Slots come before resources, and of each kind the lower numbers first. -/
def le : Place → Place → Bool
  | slot i, slot j => i ≤ j
  | slot _, resource _ => true
  | resource _, slot _ => false
  | resource i, resource j => i ≤ j

def touchLe (s t : Place × Access) : Bool :=
  if s.1 = t.1 then s.2.isWrite || !t.2.isWrite else s.1.le t.1

theorem groups_touchLe : Sorted.Groups touchLe (Prod.fst (β := Access)) where
  trans := by grind [touchLe, le, cases Place, cases Access, Access.isWrite]
  total := by grind [touchLe, le, cases Place, cases Access, Access.isWrite]
  antisymm := by grind [touchLe, le, cases Place, cases Access, Access.isWrite]
  convex := by grind [touchLe, le, cases Place, cases Access, Access.isWrite]

end Place

namespace Footprint

def empty : Footprint := {}

def append (a b : Footprint) : Footprint :=
  ⟨a.buffers ++ b.buffers, a.resources ++ b.resources⟩

instance : Append Footprint := ⟨append⟩

@[simp] theorem buffers_append (a b : Footprint) : (a ++ b).buffers = a.buffers ++ b.buffers := rfl

@[simp] theorem resources_append (a b : Footprint) :
    (a ++ b).resources = a.resources ++ b.resources := rfl

def concat (fs : List Footprint) : Footprint :=
  ⟨fs.flatMap Footprint.buffers, fs.flatMap Footprint.resources⟩

def conflicts (a b : Footprint) : Bool :=
  a.buffers.any (fun u => b.buffers.any u.conflicts) ||
    a.resources.any fun u => b.resources.any u.conflicts

def touches (f : Footprint) : List (Place × Access) :=
  f.buffers.map (fun u => (.slot u.slice.index, u.access)) ++
    f.resources.map fun u => (.resource u.resource.id, u.access)

/-- One access to each place touched: in order of places, the first touch of each. -/
def accesses (f : Footprint) : List (Place × Access) :=
  Sorted.firsts Prod.fst (Sorted.ofList Place.touchLe f.touches)

def places (f : Footprint) : List Place := f.accesses.map Prod.fst

def writes (f : Footprint) (p : Place) : Bool := f.touches.any fun t => t.1 == p && t.2.isWrite

theorem conflicts_eq_touches (a b : Footprint) :
    a.conflicts b = a.touches.any fun s => b.touches.any fun t =>
      s.1 == t.1 && s.2.conflicts t.2 := by
  simp only [conflicts, touches, List.any_append, List.any_map]
  congr 1
  · congr 1
    funext u
    rw [Bool.eq_iff_iff]
    simp [BufferUse.conflicts]
  · congr 1
    funext u
    rw [Bool.eq_iff_iff]
    simp [ResourceUse.conflicts]

theorem conflicts_comm (a b : Footprint) : a.conflicts b = b.conflicts a := by
  rw [Bool.eq_iff_iff]
  simp only [conflicts, Bool.or_eq_true, List.any_eq_true]
  constructor <;> rintro (⟨u, hu, v, hv, h⟩ | ⟨u, hu, v, hv, h⟩)
  · exact .inl ⟨v, hv, u, hu, by rwa [BufferUse.conflicts_comm]⟩
  · exact .inr ⟨v, hv, u, hu, by rwa [ResourceUse.conflicts_comm]⟩
  · exact .inl ⟨v, hv, u, hu, by rwa [BufferUse.conflicts_comm]⟩
  · exact .inr ⟨v, hv, u, hu, by rwa [ResourceUse.conflicts_comm]⟩

theorem mem_places {f : Footprint} {p : Place} : p ∈ f.places ↔ ∃ a, (p, a) ∈ f.touches := by
  simp only [places, accesses, List.mem_map, Place.groups_touchLe.mem_firsts]
  constructor
  · rintro ⟨⟨q, a⟩, ⟨hmem, -⟩, rfl⟩
    exact ⟨a, hmem⟩
  · rintro ⟨a, ha⟩
    by_cases hw : (p, .write) ∈ f.touches
    · exact ⟨(p, .write), ⟨hw, by grind [Place.touchLe, Access.isWrite]⟩, rfl⟩
    · refine ⟨(p, a), ⟨ha, fun t ht htp => ?_⟩, rfl⟩
      obtain ⟨q, b⟩ := t
      obtain rfl : q = p := htp
      cases a <;> cases b <;> simp_all [Place.touchLe, Access.isWrite]

theorem nodup_places (f : Footprint) : f.places.Nodup := Place.groups_touchLe.nodup_firsts f.touches

theorem writes_iff {f : Footprint} {p : Place} : f.writes p ↔ (p, Access.write) ∈ f.touches := by
  simp only [writes, List.any_eq_true, Bool.and_eq_true, beq_iff_eq]
  constructor
  · rintro ⟨⟨q, a⟩, h, rfl, ha⟩
    cases a <;> simp_all [Access.isWrite]
  · exact fun h => ⟨_, h, rfl, rfl⟩

theorem isWrite_of_mem_accesses {f : Footprint} {p : Place} {a : Access} (h : (p, a) ∈ f.accesses) :
    a.isWrite = f.writes p := by
  obtain ⟨hmem, hleast⟩ := Place.groups_touchLe.mem_firsts.1 h
  rw [Bool.eq_iff_iff, writes_iff]
  constructor
  · intro ha
    cases a
    · cases ha
    · exact hmem
  · intro hw
    have hfirst := hleast _ hw rfl
    rwa [Place.touchLe, if_pos rfl, Access.isWrite, Bool.not_true, Bool.or_false] at hfirst

end Footprint

end OpFlow
