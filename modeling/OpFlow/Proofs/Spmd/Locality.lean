import OpFlow.Platform
import OpFlow.Proofs.Graph.Hazards

/-!
Operations that keep to what they declare. The outcome of such an operation, and what it leaves in
the slots it writes, depend on nothing but the slots it touches; all other slots stay as they are. As
the text of an error may tell how many slots there are, arenas are compared that have as many.
-/
namespace OpFlow

open Machine (CallKey Effect)

/-- Two arenas have as many slots, and hold the same in those that a footprint touches. -/
structure Arena.AgreeOn (f : Footprint) (a a' : Arena) : Prop where
  size : a.size = a'.size
  slot : ∀ x, .slot x ∈ f.places → a.slots[x]? = a'.slots[x]?

/-- A change of an arena, with what it comes to, depends only on the slots that a footprint touches,
and changes only those that it writes. -/
structure Footprint.Confines {β : Type} (f : Footprint) (g : Arena → Arena × β) : Prop where
  size : ∀ a, (g a).1.size = a.size
  frame : ∀ a x, f.writes (.slot x) = false → (g a).1.slots[x]? = a.slots[x]?
  result : ∀ a a', a.AgreeOn f a' → (g a).2 = (g a').2
  written : ∀ a a', a.AgreeOn f a' →
    ∀ x, f.writes (.slot x) → (g a).1.slots[x]? = (g a').1.slots[x]?

/-- Launched as this call on a host in this state, an operation ends at once, with the outcome of a
change of the arena that keeps to its footprint; and it changes nothing else. -/
def Primitive.IsLocal (op : Primitive) (info : OpInfo) (c : CallKey) (host : HostState) : Prop :=
  ∃ g : Arena → Arena × Except String Outcome, op.footprint.Confines g ∧
    ∀ (p : Platform) (a : Arena), p.host? c.run.host = some { host with arena := a } →
      Platform.launch c info op p =
        (p.setArena c.run.host (g a).1, (g a).2.map fun o => [.settle c o])

namespace Arena

variable {f : Footprint} {a a' : Arena} {s : Slice}

theorem read_congr (hsize : a.size = a'.size) (hslot : a.slots[s.index]? = a'.slots[s.index]?) :
    a.read s = a'.read s := by
  simp only [read, slot, hslot, hsize]

def attempt (g : Arena → Except Error Arena) (a : Arena) : Arena × Outcome :=
  match g a with
  | .ok a => (a, .ok ())
  | .error e => (a, .error e)

theorem modify_of_read {k : Bytes → Bytes} {old : Bytes} (h : a.read s = .ok old) :
    a.modify s k = .ok ⟨a.slots.modify s.index fun b => b.splice s.offset (k old)⟩ := by
  rw [modify, h]
  rfl

theorem modify_of_read_error {k : Bytes → Bytes} {e : Error} (h : a.read s = .error e) :
    a.modify s k = .error e := by
  rw [modify, h]
  rfl

/-- Changing a slice of a slot that is written, by what the touched slots determine, keeps to the
footprint. -/
theorem confines_attempt (hw : f.writes (.slot s.index)) {r : Arena → Except Error (Bytes → Bytes)}
    (hr : ∀ a a' : Arena, a.AgreeOn f a' → r a = r a') :
    f.Confines (attempt fun a => r a >>= a.modify s) := by
  have hread : ∀ a a' : Arena, a.AgreeOn f a' → a.read s = a'.read s := fun a a' h =>
    read_congr h.size (h.slot _ (Footprint.mem_places_of_writes hw))
  -- either nothing changes, or just the slot of the slice does
  have hcases : ∀ a : Arena, (∃ e, ∀ a', a.AgreeOn f a' →
        attempt (fun a => r a >>= a.modify s) a' = (a', .error e)) ∨
      ∃ new : Bytes → Bytes, ∀ a', a.AgreeOn f a' →
        attempt (fun a => r a >>= a.modify s) a' = (⟨a'.slots.modify s.index new⟩, .ok ()) :=
    fun a => by
      cases hra : r a with
      | error e =>
        refine .inl ⟨e, fun a' h => ?_⟩
        rw [attempt, ← hr a a' h, hra]
        rfl
      | ok k =>
        cases hold : a.read s with
        | error e =>
          refine .inl ⟨e, fun a' h => ?_⟩
          have hmod : (r a' >>= a'.modify s) = .error e := by
            rw [← hr a a' h, hra]
            exact modify_of_read_error ((hread a a' h).symm.trans hold)
          rw [attempt, hmod]
        | ok old =>
          refine .inr ⟨fun b => b.splice s.offset (k old), fun a' h => ?_⟩
          have hmod : (r a' >>= a'.modify s) =
              .ok ⟨a'.slots.modify s.index fun b => b.splice s.offset (k old)⟩ := by
            rw [← hr a a' h, hra]
            exact modify_of_read ((hread a a' h).symm.trans hold)
          rw [attempt, hmod]
  have hrefl : ∀ a : Arena, a.AgreeOn f a := fun a => ⟨rfl, fun _ _ => rfl⟩
  refine ⟨fun a => ?_, fun a x hx => ?_, fun a a' h => ?_, fun a a' h x hx => ?_⟩
  · rcases hcases a with ⟨e, he⟩ | ⟨new, hnew⟩
    · rw [he a (hrefl a)]
    · rw [hnew a (hrefl a)]
      simp [size]
  · have hne : s.index ≠ x := fun heq => by
      rw [← heq, hw] at hx
      cases hx
    rcases hcases a with ⟨e, he⟩ | ⟨new, hnew⟩
    · rw [he a (hrefl a)]
    · rw [hnew a (hrefl a)]
      simp [Array.getElem?_modify, hne]
  · rcases hcases a with ⟨e, he⟩ | ⟨new, hnew⟩
    · rw [he a (hrefl a), he a' h]
    · rw [hnew a (hrefl a), hnew a' h]
  · have hslot := h.slot x (Footprint.mem_places_of_writes hx)
    rcases hcases a with ⟨e, he⟩ | ⟨new, hnew⟩
    · rw [he a (hrefl a), he a' h]
      exact hslot
    · rw [hnew a (hrefl a), hnew a' h]
      simp only [Array.getElem?_modify, hslot]

theorem write_eq (a : Arena) (s : Slice) (new : Bytes) :
    a.write s new = (if new.length ≠ s.size then
      .error (.invalidArgument
        ("cannot write " ++ toString new.length ++ " bytes into " ++ s.describe))
      else .ok fun _ => new : Except Error (Bytes → Bytes)) >>= a.modify s := by
  unfold write
  split <;> rfl

theorem confines_write (hw : f.writes (.slot s.index)) (new : Bytes) :
    f.Confines (attempt fun a => a.write s new) := by
  simp only [write_eq]
  exact confines_attempt hw fun _ _ _ => rfl

end Arena

namespace Platform

variable (p : Platform) (h : Nat) (a : Arena)

theorem host?_setArena (k : Nat) : (p.setArena h a).host? k =
    if h = k then (p.host? k).map fun s => { s with arena := a } else p.host? k := by
  simp only [host?, setArena, modifyHost, Array.getElem?_modify]

theorem arenaOf_setArena_of_ne {k : Nat} (hne : h ≠ k) :
    (p.setArena h a).arenaOf k = p.arenaOf k := by
  simp only [arenaOf, host?_setArena, hne, if_false]

theorem arenaOf_setArena_self {s : HostState} (hs : p.host? h = some s) :
    (p.setArena h a).arenaOf h = a := by
  simp [arenaOf, host?_setArena, hs]

@[simp] theorem transport_setArena : (p.setArena h a).transport = p.transport := rfl

theorem setArena_arenaOf : p.setArena h (p.arenaOf h) = p := by
  have hhosts : p.hosts.modify h (fun s => { s with arena := p.arenaOf h }) = p.hosts := by
    refine Array.ext_getElem? fun k => ?_
    rw [Array.getElem?_modify]
    split
    · next hk =>
      subst hk
      cases hs : p.hosts[h]? with
      | none => rfl
      | some s => simp [arenaOf, host?, hs]
    · rfl
  obtain ⟨hosts, transport, timers, generators, gridRuns, intakes, deferred⟩ := p
  simp only [setArena, modifyHost] at hhosts ⊢
  rw [hhosts]

theorem onArena_eq (f : Arena → Except Error Arena) :
    p.onArena h f = (p.setArena h (Arena.attempt f (p.arenaOf h)).1,
      (Arena.attempt f (p.arenaOf h)).2) := by
  unfold onArena Arena.attempt
  cases f (p.arenaOf h) with
  | ok a => rfl
  | error e =>
    dsimp only
    rw [setArena_arenaOf]

end Platform

namespace Primitive

variable {info : OpInfo} {c : CallKey} {host : HostState}

theorem isLocal_of_endedBy {op : Primitive} {g : Arena → Except Error Arena}
    (hg : op.footprint.Confines (Arena.attempt g))
    (hlaunch : ∀ (p : Platform) (a : Arena), p.host? c.run.host = some { host with arena := a } →
      Platform.launch c info op p = p.endedBy c g) : op.IsLocal info c host := by
  refine ⟨fun a => ((Arena.attempt g a).1, .ok (Arena.attempt g a).2),
    ⟨hg.size, hg.frame, fun a a' h => by rw [hg.result a a' h], hg.written⟩, fun p a hp => ?_⟩
  have harena : p.arenaOf c.run.host = a := by simp [Platform.arenaOf, hp]
  rw [hlaunch p a hp, Platform.endedBy, Platform.onArena_eq, harena]
  rfl

/-- A copy keeps to its footprint. -/
theorem confines_copy (src dst : Slice) :
    (copy src dst).footprint.Confines (Arena.attempt fun a => a.copy src dst) := by
  have hw : (copy src dst).footprint.writes (.slot dst.index) := by
    simp [footprint, Footprint.writes, Footprint.touches, BufferUse.write, Access.isWrite]
  have hsrc : .slot src.index ∈ (copy src dst).footprint.places :=
    Footprint.mem_places.2 ⟨.read, by simp [footprint, Footprint.touches, BufferUse.read]⟩
  have hcopy : (fun a : Arena => a.copy src dst) = fun a => (if src.size ≠ dst.size then
      .error (.invalidArgument ("copy size mismatch: " ++ src.describe ++ " -> " ++ dst.describe))
      else (fun new _ => new) <$> a.read src : Except Error (Bytes → Bytes)) >>= a.modify dst := by
    funext a
    unfold Arena.copy
    split
    · rfl
    · cases a.read src <;> rfl
  rw [hcopy]
  refine Arena.confines_attempt hw fun a a' h => ?_
  rw [Arena.read_congr h.size (h.slot _ hsrc)]

/-- The number that a host writes, or why it has none. -/
def placeNumber (context : RunContext) (axis : PlaceAxis) : Except Error Nat := do
  let ctx ← context.requireCollective
  let place ← ctx.assignment.logicalId ctx.device
  if Nat.pow 2 32 ≤ axis.select place then
    throw (Error.invalidArgument "logical id does not fit in u32")
  return axis.select place

/-- Writing the number of a host is local. -/
theorem isLocal_placeId (axis : PlaceAxis) (dst : Slice) : (placeId axis dst).IsLocal info c host := by
  have hw : (placeId axis dst).footprint.writes (.slot dst.index) := by
    simp [footprint, Footprint.writes, Footprint.touches, BufferUse.write, Access.isWrite]
  refine isLocal_of_endedBy
    (g := fun a => placeNumber host.context axis >>= fun n => a.write dst (.ofNat 4 n)) ?_
    fun p a hp => ?_
  · have hplace : (fun a : Arena =>
        placeNumber host.context axis >>= fun n => a.write dst (.ofNat 4 n)) =
        fun a => (placeNumber host.context axis >>= fun n =>
          if (Bytes.ofNat 4 n).length ≠ dst.size then
            .error (.invalidArgument ("cannot write " ++ toString (Bytes.ofNat 4 n).length ++
              " bytes into " ++ dst.describe))
          else .ok fun _ => Bytes.ofNat 4 n : Except Error (Bytes → Bytes)) >>= a.modify dst := by
      funext a
      cases placeNumber host.context axis with
      | error e => rfl
      | ok n => exact Arena.write_eq a dst _
    rw [hplace]
    exact Arena.confines_attempt hw fun _ _ _ => rfl
  · have hcontext : p.contextOf c.run.host = host.context := by simp [Platform.contextOf, hp]
    rw [← hcontext]
    rfl

end Primitive

end OpFlow
