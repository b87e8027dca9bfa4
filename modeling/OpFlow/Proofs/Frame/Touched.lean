import OpFlow.Proofs.Machine.Device
import OpFlow.Proofs.Machine.InOrder
import OpFlow.Proofs.Operation.Occurrence
import Mathlib.Data.Set.Basic

/-!
What a crew has touched on a host: the uses of the operations that it has called there, each with
only what it does itself. A leaf does all that it declares; a choice and a loop read what steers
them, and whatever else they declare is done by the operations inside them. All of it is declared by
the operations around and by the program.
-/
namespace OpFlow

def Operation.ownUses {α : Type} [Leaf α] : Operation α → List BufferUse
  | .leaf _ a => (Leaf.footprint a).buffers
  | .call _ _ => []
  | .conditional _ index _ _ => [.read index]
  | .loop _ predicate _ _ _ => [.read predicate]

namespace Operation

variable {α : Type} [Leaf α] {op : Operation α} {s : Slice}

theorem ownUses_subset (op : Operation α) : op.ownUses ⊆ op.footprint.buffers := by
  cases op <;> simp [ownUses, footprint]

theorem read_mem_ownUses (h : op.steering? = some s) : .read s ∈ op.ownUses := by
  cases op <;> simp_all [steering?, ownUses]

end Operation

namespace Machine.Crew

variable {α σ ι : Type} [Leaf α] {b : Backend α σ ι} {s t : Crew α σ ι} {ch : Choice σ ι}
  {c d : CallKey} {op : Operation α} {item : Item α ι} {k : Nat}

/-- The uses of the operations that have been called on a host. -/
def touched (s : Crew α σ ι) (k : Nat) : Set BufferUse :=
  { u | ∃ c op, .launched c ∈ s.log ∧ c.run.host = k ∧ s.Belongs c op ∧ u ∈ op.ownUses }

theorem Move.belongs (hm : Move b ch s t) (h : s.Belongs c op) : t.Belongs c op :=
  let ⟨region, hmem, hop⟩ := h
  let ⟨_, _, _, hbegun⟩ := hm.log
  ⟨region, hbegun.subset hmem, hop⟩

theorem Move.launched (hm : Move b ch s t) (h : .launched c ∈ s.log) : .launched c ∈ t.log := by
  obtain ⟨events, hlog, -⟩ := hm.log
  rw [hlog]
  exact List.mem_append_left _ h

theorem Move.touched_subset (hm : Move b ch s t) (k : Nat) : s.touched k ⊆ t.touched k := by
  rintro u ⟨c, op, hlog, hhost, hop, hu⟩
  exact ⟨c, op, hm.launched hlog, hhost, hm.belongs hop, hu⟩

theorem Move.launched_of_faces (hm : Move b ch s t) (h : s.Faces ch (.call c))
    (hop : s.world.operation? c = some op) : .launched c ∈ t.log := by
  obtain ⟨i, rest, rfl, hi⟩ := h
  cases hm with
  | act hi' hw =>
    obtain ⟨rfl, rfl⟩ := List.cons.inj (Option.some.inj (hi'.symm.trans hi))
    simp [after, World.noted, hop]

theorem Move.launched_of_steers (hm : Move b ch s t) (hs : s.Sound) (h : s.Faces ch item)
    (hc : s.world.Steers item c) (hop : s.world.operation? c = some op) : .launched c ∈ t.log := by
  obtain ⟨-, rfl | hcall⟩ := hc
  · exact hm.launched_of_faces h hop
  · obtain ⟨y, hy⟩ := Option.isSome_iff_exists.1 hcall
    exact hm.launched (hs.launched_of_call hy)

theorem Move.mem_touched (hm : Move b ch s t) (hs : s.Sound) (hlog : .launched c ∈ t.log)
    (hop : s.world.operation? c = some op) {u : BufferUse} (hu : u ∈ op.ownUses) :
    u ∈ t.touched c.run.host :=
  ⟨c, op, hlog, rfl, hm.belongs (hs.belongs hop), hu⟩

theorem RunSound.hasBegun {r : RunKey} {region : Program α} (h : s.RunSound r)
    (hmem : (r, region) ∈ s.begun) : s.HasBegun r := by
  rw [mem_begun_iff] at hmem
  unfold HasBegun
  cases h with
  | idle hv =>
    rw [hv.regions] at hmem
    cases hmem
  | empty hv => rw [hv.started]; omega
  | ordered hv => rw [hv.started]; omega
  | scheduled hv => rw [hv.started]; omega

omit [Leaf α] in
theorem mem_noted_launched {w : World α σ ι} :
    .launched c ∈ w.noted item ↔ item = .call c ∧ (w.operation? c).isSome := by
  cases item with
  | call c' =>
    by_cases hsome : (w.operation? c').isSome
    · rw [World.noted, if_pos hsome, List.mem_singleton, Event.launched.injEq, Item.call.injEq]
      exact ⟨fun h => ⟨h.symm, h ▸ hsome⟩, fun h => h.1.symm⟩
    · rw [World.noted, if_neg hsome, Item.call.injEq]
      exact ⟨fun h => absurd h List.not_mem_nil, fun h => absurd (h.1 ▸ h.2) hsome⟩
  | effect e =>
    cases e <;> simp only [World.noted]
    case settle => split <;> simp
    all_goals simp
  | _ =>
    simp only [World.noted]
    repeat' split
    all_goals simp

/-- Whatever has been called is an operation of a run. -/
theorem Reachable.belongs_of_launched (h : Reachable b s) (hc : .launched c ∈ s.log) :
    ∃ op, s.Belongs c op := by
  induction h with
  | fresh => cases hc
  | @move s t ch hreach hm ih =>
    have hold : .launched c ∈ s.log → ∃ op, t.Belongs c op := fun hc =>
      let ⟨op, hop⟩ := ih hc
      ⟨op, hm.belongs hop⟩
    cases hm with
    | @act _ i item rest w hi hw =>
      rcases List.mem_append.1 hc with hc | hc
      · exact hold hc
      · obtain ⟨-, hsome⟩ := mem_noted_launched.1 hc
        obtain ⟨op, hop⟩ := Option.isSome_iff_exists.1 hsome
        exact ⟨op, (hreach.sound.belongs hop).after⟩
    | @drop _ _ _ _ task =>
      cases task with
      | visit r j => exact hold (by simpa [lose] using hc)
      | work x => exact hold hc
    | take => exact hold hc
    | outside => exact hold hc
    | execute => exact hold hc

theorem Reachable.within_caller (h : Reachable b s) (hop : s.Belongs c op)
    (hd : c.run.caller? = some d) :
    .launched d ∈ s.log ∧ ∃ op', s.Belongs d op' ∧ op.footprint.Within op'.footprint := by
  obtain ⟨n, hn⟩ := RunKey.eq_nested hd
  obtain ⟨region, hmem, hnode⟩ := hop
  rw [hn] at hmem
  obtain ⟨op', hop', hregion⟩ := h.mem_nested (.inl hmem)
  refine ⟨?_, op', hop', Operation.within_of_mem_ops hregion (List.mem_of_getElem? hnode)⟩
  have hlaunched := (h.sound.fresh d n ((h.sound.run _).hasBegun hmem)).1
  rw [marks_launched] at hlaunched
  exact List.count_pos_iff.1 hlaunched

theorem Reachable.within_of_encloses (h : Reachable b s) (hop : s.Belongs c op)
    (hd : d.Encloses c) :
    .launched d ∈ s.log ∧ ∃ op', s.Belongs d op' ∧ op.footprint.Within op'.footprint := by
  induction hd generalizing op with
  | single hd => exact h.within_caller hop hd
  | tail _ hd ih =>
    obtain ⟨-, op', hop', hwithin⟩ := h.within_caller hop hd
    obtain ⟨hlog, op'', hop'', hwithin'⟩ := ih hop'
    exact ⟨hlog, op'', hop'', hwithin.trans hwithin'⟩

theorem Reachable.within_program (h : Reachable b s) (hop : s.Belongs c op) :
    ∃ p, s.world.program? c.run.host = some p ∧ op.footprint.Within p.footprint := by
  obtain ⟨p, hp, hoccurs⟩ := h.occurs_of_belongs hop
  exact ⟨p, hp, Operation.footprintOfRegion_eq p ▸ hoccurs.within⟩

end Machine.Crew

end OpFlow
