import OpFlow.Proofs.Footprint
import OpFlow.Proofs.Machine.Tally

/-!
The operations of a program, at any depth. They are what a search by kind goes through, and whatever
is called while a host executes its program is one of them.
-/
namespace OpFlow

variable {α : Type}

/-- An operation occurs in a program, at some depth. -/
inductive Region.Occurs (p : Program α) : Operation α → Prop
  | here {op : Operation α} (h : op ∈ p.ops) : p.Occurs op
  | nested {op inner : Operation α} {region : Program α} (h : p.Occurs op)
      (hregion : region ∈ op.nested) (hinner : inner ∈ region.ops) : p.Occurs inner

namespace Region.Occurs

variable {p q : Program α} {op : Operation α}

theorem trans {outer : Operation α} (houter : p.Occurs outer) (hq : q ∈ outer.nested)
    (h : q.Occurs op) : p.Occurs op := by
  induction h with
  | here hop => exact .nested houter hq hop
  | nested _ hregion hinner ih => exact .nested ih hregion hinner

theorem within [Leaf α] (h : p.Occurs op) :
    op.footprint.Within (Operation.footprintOfRegion p) := by
  induction h with
  | here hop => exact Operation.within_footprintOfRegion hop
  | nested _ hregion hinner ih => exact (Operation.within_of_mem_ops hregion hinner).trans ih

end Region.Occurs

/-- An operation is another one, or has it in one of its regions, at some depth. -/
def Operation.Contains (op inner : Operation α) : Prop :=
  inner = op ∨ ∃ region ∈ op.nested, region.Occurs inner

theorem Region.Occurs.of_contains {p : Program α} {op inner : Operation α} (h : p.Occurs op)
    (hinner : op.Contains inner) : p.Occurs inner := by
  rcases hinner with rfl | ⟨region, hregion, hinner⟩
  · exact h
  · exact h.trans hregion hinner

theorem Operation.Contains.nested {op mid inner : Operation α} {region : Program α}
    (hregion : region ∈ op.nested) (hmid : mid ∈ region.ops) (h : mid.Contains inner) :
    op.Contains inner := .inr ⟨region, hregion, Region.Occurs.of_contains (.here hmid) h⟩

/-! ### Searching by kind -/

namespace Operation

variable [Leaf α] {kind : OpKind → Bool}

theorem opsContainKind_iff {ops : List (Operation α)} :
    opsContainKind kind ops ↔ ∃ op ∈ ops, containsKind kind op := by
  induction ops with
  | nil => simp [opsContainKind]
  | cons op ops ih => simp [opsContainKind, ih]

theorem branchesContainKind_iff {branches : List (Program α)} :
    branchesContainKind kind branches ↔ ∃ b ∈ branches, b.containsKind kind := by
  induction branches with
  | nil => simp [branchesContainKind]
  | cons b branches ih => simp [branchesContainKind, ih, Region.containsKind]

theorem regionContainsKind_iff {region : Program α} :
    region.containsKind kind ↔ ∃ op ∈ region.ops, containsKind kind op := by
  obtain ⟨ops, reduction, verify⟩ := region
  rw [Region.containsKind, regionContainsKind, opsContainKind_iff]

theorem containsKind_iff {op : Operation α} :
    containsKind kind op ↔ kind op.kind ∨ ∃ region ∈ op.nested, region.containsKind kind := by
  cases op with
  | leaf => simp [containsKind, Operation.kind, nested]
  | call info body => simp [containsKind, Operation.kind, nested, Region.containsKind]
  | conditional info index type branches =>
    simp [containsKind, Operation.kind, nested, branchesContainKind_iff]
  | loop info predicate condition body trips =>
    simp [containsKind, Operation.kind, nested, Region.containsKind, or_assoc]

mutual

theorem exists_of_containsKind : (op : Operation α) → containsKind kind op →
    kind op.kind ∨ ∃ region ∈ op.nested, ∃ inner, region.Occurs inner ∧ kind inner.kind
  | .leaf _ _, h => .inl (by simpa [containsKind, Operation.kind] using h)
  | .call _ body, h => by
    rw [containsKind, Bool.or_eq_true] at h
    exact h.imp id fun h => ⟨body, List.mem_singleton_self _, exists_of_regionContainsKind body h⟩
  | .conditional _ _ _ branches, h => by
    rw [containsKind, Bool.or_eq_true] at h
    exact h.imp id (exists_of_branchesContainKind branches)
  | .loop _ _ condition body _, h => by
    rw [containsKind, Bool.or_eq_true, Bool.or_eq_true] at h
    rcases h with (h | h) | h
    · exact .inl h
    · exact .inr ⟨condition, by simp [nested], exists_of_regionContainsKind condition h⟩
    · exact .inr ⟨body, by simp [nested], exists_of_regionContainsKind body h⟩

theorem exists_of_regionContainsKind : (region : Program α) → regionContainsKind kind region →
    ∃ op, region.Occurs op ∧ kind op.kind
  | ⟨ops, reduction, verify⟩, h => by
    rw [regionContainsKind] at h
    obtain ⟨op, hop, hkind⟩ := exists_of_opsContainKind ops h
    rcases hkind with hkind | ⟨region, hregion, inner, hinner, hkind⟩
    · exact ⟨op, .here hop, hkind⟩
    · exact ⟨inner, Region.Occurs.trans (.here hop) hregion hinner, hkind⟩

theorem exists_of_opsContainKind : (ops : List (Operation α)) → opsContainKind kind ops →
    ∃ op ∈ ops, kind op.kind ∨ ∃ region ∈ op.nested, ∃ inner, region.Occurs inner ∧ kind inner.kind
  | [], h => by simp [opsContainKind] at h
  | op :: ops, h => by
    rw [opsContainKind, Bool.or_eq_true] at h
    rcases h with h | h
    · exact ⟨op, List.mem_cons_self, exists_of_containsKind op h⟩
    · obtain ⟨op', hop', hkind⟩ := exists_of_opsContainKind ops h
      exact ⟨op', List.mem_cons_of_mem _ hop', hkind⟩

theorem exists_of_branchesContainKind : (branches : List (Program α)) →
    branchesContainKind kind branches →
      ∃ region ∈ branches, ∃ inner, region.Occurs inner ∧ kind inner.kind
  | [], h => by simp [branchesContainKind] at h
  | b :: branches, h => by
    rw [branchesContainKind, Bool.or_eq_true] at h
    rcases h with h | h
    · exact ⟨b, List.mem_cons_self, exists_of_regionContainsKind b h⟩
    · obtain ⟨b', hb', hinner⟩ := exists_of_branchesContainKind branches h
      exact ⟨b', List.mem_cons_of_mem _ hb', hinner⟩

end

end Operation

theorem Region.containsKind_iff [Leaf α] {p : Program α} {kind : OpKind → Bool} :
    p.containsKind kind ↔ ∃ op, p.Occurs op ∧ kind op.kind := by
  constructor
  · exact Operation.exists_of_regionContainsKind p
  · rintro ⟨op, hop, hkind⟩
    have hcontains : Operation.containsKind kind op := Operation.containsKind_iff.2 (.inl hkind)
    clear hkind
    induction hop with
    | here hmem => exact Operation.regionContainsKind_iff.2 ⟨_, hmem, hcontains⟩
    | nested _ hregion hinner ih =>
      exact ih (Operation.containsKind_iff.2
        (.inr ⟨_, hregion, Operation.regionContainsKind_iff.2 ⟨_, hinner, hcontains⟩⟩))

/-! ### Executions -/

namespace Machine.Crew

variable {σ ι : Type} [Leaf α] {b : Backend α σ ι} {s : Crew α σ ι} {r : RunKey} {c : CallKey}
  {region : Program α} {op : Operation α}

theorem Reachable.occurs (h : Reachable b s) (hr : s.HasRegion r region) (hop : op ∈ region.ops) :
    ∃ p, s.world.program? r.host = some p ∧ p.Occurs op := by
  obtain ⟨host, execution, scope⟩ := r
  induction scope generalizing region op with
  | nil => exact ⟨region, h.program hr rfl, .here hop⟩
  | cons call scope ih =>
    obtain ⟨outer, ⟨region', hmem, houter⟩, hregion⟩ :=
      h.mem_nested (c := ⟨⟨host, execution, scope⟩, call.1⟩) (n := call.2) hr
    obtain ⟨p, hp, hoccurs⟩ := ih (List.mem_of_getElem? houter) (.inl hmem)
    exact ⟨p, hp, .nested hoccurs hregion hop⟩

theorem Reachable.occurs_of_belongs (h : Reachable b s) (hop : s.Belongs c op) :
    ∃ p, s.world.program? c.run.host = some p ∧ p.Occurs op := by
  obtain ⟨region, hmem, hnode⟩ := hop
  exact h.occurs (.inl hmem) (List.mem_of_getElem? hnode)

end Machine.Crew

end OpFlow
