import OpFlow.Proofs.Footprint
import OpFlow.Proofs.Spmd.Locality

/-!
What programs mean in program order, whatever runs them. Leaf operations are functions on arenas
that keep to what they declare, and a region does one operation after the other. It comes to the
error of its first operation that fails; what the later ones would have done is told as well, since
a scheduler may have started some of them by then.
-/
namespace OpFlow

/-! ### Keeping to a footprint -/

namespace Footprint

variable {f f' : Footprint} {β γ : Type}

theorem Within.touches (h : f.Within f') : f.touches ⊆ f'.touches :=
  List.append_subset.2
    ⟨fun _ ht => List.mem_append_left _ (List.map_subset _ h.buffers ht),
      fun _ ht => List.mem_append_right _ (List.map_subset _ h.resources ht)⟩

theorem Within.places (h : f.Within f') {x : Place} (hx : x ∈ f.places) : x ∈ f'.places := by
  rw [mem_places] at hx ⊢
  obtain ⟨a, ha⟩ := hx
  exact ⟨a, h.touches ha⟩

theorem Within.writes (h : f.Within f') {x : Place} (hx : f.writes x) : f'.writes x := by
  rw [writes_iff] at hx ⊢
  exact h.touches hx

end Footprint

namespace Arena

variable {f f' : Footprint} {a a' : Arena}

theorem AgreeOn.mono (h : a.AgreeOn f' a') (hf : f.Within f') : a.AgreeOn f a' :=
  ⟨h.size, fun x hx => h.slot x (hf.places hx)⟩

theorem AgreeOn.read (h : a.AgreeOn f a') {s : Slice} (hs : .slot s.index ∈ f.places) :
    a.read s = a'.read s :=
  read_congr h.size (h.slot _ hs)

end Arena

namespace Footprint.Confines

variable {f f' : Footprint} {β γ : Type} {g : Arena → Arena × β} {a a' : Arena}

theorem agreeOn (h : f.Confines g) (ha : a.AgreeOn f a') : (g a).1.AgreeOn f (g a').1 := by
  refine ⟨by rw [h.size, h.size, ha.size], fun x hx => ?_⟩
  by_cases hw : f.writes (.slot x)
  · exact h.written a a' ha x hw
  · rw [h.frame a x (by simpa using hw), h.frame a' x (by simpa using hw), ha.slot x hx]

theorem mono (h : f.Confines g) (hf : f.Within f') : f'.Confines g where
  size := h.size
  frame a x hx := h.frame a x (by
    by_contra hw
    rw [hf.writes (by simpa using hw)] at hx
    cases hx)
  result a a' ha := h.result a a' (ha.mono hf)
  written a a' ha x hx := by
    by_cases hw : f.writes (.slot x)
    · exact h.written a a' (ha.mono hf) x hw
    · rw [h.frame a x (by simpa using hw), h.frame a' x (by simpa using hw),
        ha.slot x (Footprint.mem_places_of_writes hx)]

theorem same {r : Arena → β} (hr : ∀ a a' : Arena, a.AgreeOn f a' → r a = r a') :
    f.Confines fun a => (a, r a) where
  size _ := rfl
  frame _ _ _ := rfl
  result := hr
  written _ _ ha x hx := ha.slot x (Footprint.mem_places_of_writes hx)

theorem andThen (h : f.Confines g) {k : β → Arena → Arena × γ} (hk : ∀ a, f.Confines (k (g a).2)) :
    f.Confines fun a => k (g a).2 (g a).1 where
  size a := ((hk a).size _).trans (h.size a)
  frame a x hx := ((hk a).frame _ x hx).trans (h.frame a x hx)
  result a a' ha := by
    rw [h.result a a' ha]
    exact (hk a').result _ _ (h.agreeOn ha)
  written a a' ha x hx := by
    rw [h.result a a' ha]
    exact (hk a').written _ _ (h.agreeOn ha) x hx

theorem choose {k : γ → Arena → Arena × β} {r : Arena → γ}
    (hr : ∀ a a' : Arena, a.AgreeOn f a' → r a = r a') (hk : ∀ y, f.Confines (k y)) :
    f.Confines fun a => k (r a) a :=
  (same hr).andThen fun a => hk (r a)

end Footprint.Confines

/-! ### Loops -/

/-- How far a loop has come: it is to ask for its next nested run, or it is over. -/
inductive Turning
  | going (iteration : Nat) (inBody : Bool)
  | finished (outcome : Outcome)

namespace Turning

def afterBody (iteration : Nat) : Outcome → Turning
  | .error e => finished (.error e)
  | .ok () => going (iteration + 1) false

/-- How a loop goes on after its condition, which has left its answer in the arena. -/
def afterCondition (predicate : Slice) (iteration : Nat) (a : Arena) : Outcome → Turning
  | .error e => finished (.error e)
  | .ok () =>
    match a.read predicate with
    | .error e => finished (.error e)
    | .ok bytes => if bytes.head?.any (· != 0) then going iteration true else finished (.ok ())

/-- What a loop does from one nested run to the next, when its regions do this. -/
def next (predicate : Slice) (trips : Option Nat) (condition body : Arena → Arena × Outcome) :
    Turning → Arena → Arena × Turning
  | finished o => fun a => (a, finished o)
  | going iteration inBody =>
    if !inBody && trips.any (· ≤ iteration) then fun a => (a, finished (.ok ()))
    else if inBody || trips.isSome then fun a => ((body a).1, afterBody iteration (body a).2)
    else fun a =>
      ((condition a).1, afterCondition predicate iteration (condition a).1 (condition a).2)

/-- Where a loop is after some turns. -/
def after (predicate : Slice) (trips : Option Nat) (condition body : Arena → Arena × Outcome) :
    Nat → Arena → Arena × Turning
  | 0, a => (a, going 0 false)
  | n + 1, a =>
    next predicate trips condition body (after predicate trips condition body n a).2
      (after predicate trips condition body n a).1

open Classical in
/-- What a loop does, if it is ever over. -/
noncomputable def whole (predicate : Slice) (trips : Option Nat)
    (condition body : Arena → Arena × Outcome) (a : Arena) : Arena × Outcome :=
  if h : ∃ n o, (after predicate trips condition body n a).2 = finished o then
    ((after predicate trips condition body h.choose a).1, h.choose_spec.choose)
  else (a, .ok ())

variable {predicate : Slice} {trips : Option Nat} {condition body : Arena → Arena × Outcome}
  {f : Footprint} {a a' : Arena} {n m : Nat} {o : Outcome}

theorem after_of_finished (h : (after predicate trips condition body n a).2 = finished o) (hm : n ≤ m) :
    after predicate trips condition body m a =
      ((after predicate trips condition body n a).1, finished o) := by
  induction hm with
  | refl => rw [← h]
  | step _ ih => rw [after, ih]; rfl

theorem whole_eq (h : (after predicate trips condition body n a).2 = finished o) :
    whole predicate trips condition body a = ((after predicate trips condition body n a).1, o) := by
  have hex : ∃ n o, (after predicate trips condition body n a).2 = finished o := ⟨n, o, h⟩
  rw [whole, dif_pos hex]
  have hlast := after_of_finished h (Nat.le_max_left n hex.choose)
  have hlast' := after_of_finished hex.choose_spec.choose_spec (Nat.le_max_right n hex.choose)
  obtain ⟨harena, hover⟩ := Prod.mk.inj (hlast.symm.trans hlast')
  rw [← harena, finished.inj hover]

theorem confines_next (hp : .slot predicate.index ∈ f.places) (hcondition : f.Confines condition)
    (hbody : f.Confines body) (t : Turning) :
    f.Confines (next predicate trips condition body t) := by
  cases t with
  | finished o => exact .same fun _ _ _ => rfl
  | going iteration inBody =>
    rw [next]
    split
    · exact .same fun _ _ _ => rfl
    split
    · exact hbody.andThen (k := fun y a => (a, afterBody iteration y)) fun y =>
        .same fun _ _ _ => rfl
    · refine hcondition.andThen (k := fun y a => (a, afterCondition predicate iteration a y))
        fun a₀ => .same fun a a' ha => ?_
      cases (condition a₀).2 with
      | error => rfl
      | ok => rw [afterCondition, afterCondition, ha.read hp]

theorem confines_after (hp : .slot predicate.index ∈ f.places) (hcondition : f.Confines condition)
    (hbody : f.Confines body) (n : Nat) : f.Confines (after predicate trips condition body n) := by
  induction n with
  | zero => exact .same fun _ _ _ => rfl
  | succ n ih => exact ih.andThen fun _ => confines_next hp hcondition hbody _

theorem confines_whole (hp : .slot predicate.index ∈ f.places) (hcondition : f.Confines condition)
    (hbody : f.Confines body) : f.Confines (whole predicate trips condition body) := by
  have hafter : ∀ n, f.Confines (after predicate trips condition body n) :=
    confines_after hp hcondition hbody
  -- a loop is over after the same turns in arenas that agree, or in neither of them
  have hcases : ∀ a : Arena, (∀ a' : Arena, a.AgreeOn f a' →
        whole predicate trips condition body a' = (a', .ok ())) ∨
      ∃ n o, ∀ a' : Arena, a.AgreeOn f a' → whole predicate trips condition body a' =
        ((after predicate trips condition body n a').1, o) := fun a => by
    by_cases h : ∃ n o, (after predicate trips condition body n a).2 = finished o
    · obtain ⟨n, o, h⟩ := h
      exact .inr ⟨n, o, fun a' ha => whole_eq (((hafter n).result a a' ha).symm.trans h)⟩
    · refine .inl fun a' ha => dif_neg fun ⟨n, o, h'⟩ => h ⟨n, o, ?_⟩
      exact ((hafter n).result a a' ha).trans h'
  have hrefl : ∀ a : Arena, a.AgreeOn f a := fun a => ⟨rfl, fun _ _ => rfl⟩
  refine ⟨fun a => ?_, fun a x hx => ?_, fun a a' ha => ?_, fun a a' ha x hx => ?_⟩ <;>
    rcases hcases a with h | ⟨n, o, h⟩ <;> rw [h a (hrefl a)]
  · exact (hafter n).size a
  · exact (hafter n).frame a x hx
  · rw [h a' ha]
  · rw [h a' ha]
  · rw [h a' ha]
    exact ha.slot x (Footprint.mem_places_of_writes hx)
  · rw [h a' ha]
    exact (hafter n).written a a' ha x hx

end Turning

/-! ### Programs -/

/-- What leaf operations do: each makes something of the arena and comes to an outcome, which depends
on nothing but the slots that it declares, and changes only those that it declares to write. -/
structure Meaning (α : Type) [Leaf α] where
  act : α → Arena → Arena × Outcome
  confined : ∀ a, (Leaf.footprint a).Confines (act a)

namespace Meaning

variable {α : Type} [Leaf α] (m : Meaning α)

def first (info : OpInfo) : Outcome → Outcome → Outcome
  | .error e, _ => .error (e.attributedTo info)
  | .ok (), o => o

mutual

/-- What an operation does. -/
noncomputable def operation : Operation α → Arena → Arena × Outcome
  | .leaf _ act => m.act act
  | .call _ body => region body
  | .conditional _ index type branches => fun a =>
    match a.read index with
    | .error e => (a, .error e)
    | .ok bytes => branch branches (type.choose branches.length bytes) a
  | .loop _ predicate condition body trips =>
    Turning.whole predicate trips (region condition) (region body)

noncomputable def region : Program α → Arena → Arena × Outcome
  | ⟨ops, _, _⟩ => sequence ops

noncomputable def sequence : List (Operation α) → Arena → Arena × Outcome
  | [] => fun a => (a, .ok ())
  | op :: ops => fun a =>
    ((sequence ops (operation op a).1).1,
      first op.info (operation op a).2 (sequence ops (operation op a).1).2)

noncomputable def branch : List (Program α) → Nat → Arena → Arena × Outcome
  | [], _ => fun a => (a, .ok ())
  | b :: _, 0 => region b
  | _ :: bs, n + 1 => branch bs n

end

theorem sequence_nil (a : Arena) : m.sequence [] a = (a, .ok ()) := by
  rw [sequence]

theorem sequence_cons (op : Operation α) (ops : List (Operation α)) (a : Arena) :
    m.sequence (op :: ops) a = ((m.sequence ops (m.operation op a).1).1,
      first op.info (m.operation op a).2 (m.sequence ops (m.operation op a).1).2) := by
  rw [sequence]

theorem region_eq (r : Program α) : m.region r = m.sequence r.ops := by
  obtain ⟨ops, reduction, verify⟩ := r
  rw [region]

theorem branch_eq {branches : List (Program α)} {n : Nat} {b : Program α}
    (h : branches[n]? = some b) : m.branch branches n = m.region b := by
  induction branches generalizing n with
  | nil => cases h
  | cons b' branches ih =>
    cases n with
    | zero =>
      obtain rfl := Option.some.inj h
      rw [branch]
    | succ n =>
      rw [branch]
      exact ih h

mutual

/-- An operation keeps to what it declares. -/
theorem confines_operation : (op : Operation α) → op.footprint.Confines (m.operation op)
  | .leaf info act => by
    rw [operation, Operation.footprint]
    exact m.confined act
  | .call info body => by
    rw [operation, Operation.footprint]
    exact confines_region body
  | .conditional info index type branches => by
    rw [operation, Operation.footprint]
    refine .choose (r := fun a => a.read index) (k := fun r a => match r with
      | .error e => (a, .error e)
      | .ok bytes => m.branch branches (type.choose branches.length bytes) a)
      (fun a a' ha => ha.read ?_) fun r => ?_
    · simp [Footprint.mem_places, Footprint.touches, BufferUse.read]
    · cases r with
      | error e => exact .same fun _ _ _ => rfl
      | ok bytes => exact (confines_branch branches _).mono (Footprint.within_append_right _ _)
  | .loop info predicate condition body trips => by
    rw [operation, Operation.footprint]
    refine Turning.confines_whole ?_ ((confines_region condition).mono ?_)
      ((confines_region body).mono ?_)
    · simp [Footprint.mem_places, Footprint.touches, BufferUse.read]
    · exact (Footprint.within_append_left _ _).trans (Footprint.within_append_right _ _)
    · exact (Footprint.within_append_right _ _).trans (Footprint.within_append_right _ _)

theorem confines_region :
    (r : Program α) → (Operation.footprintOfRegion r).Confines (m.region r)
  | ⟨ops, _, _⟩ => by
    rw [region, Operation.footprintOfRegion]
    exact confines_sequence ops

theorem confines_sequence :
    (ops : List (Operation α)) → (Operation.footprintOfOps ops).Confines (m.sequence ops)
  | [] => by
    rw [sequence]
    exact .same fun _ _ _ => rfl
  | op :: ops => by
    rw [sequence, Operation.footprintOfOps]
    have hops := (confines_sequence ops).mono (Footprint.within_append_right op.footprint _)
    exact ((confines_operation op).mono (Footprint.within_append_left _ _)).andThen
      (k := fun o a => ((m.sequence ops a).1, first op.info o (m.sequence ops a).2)) fun _ =>
        hops.andThen (k := fun o a => (a, first op.info _ o)) fun _ => .same fun _ _ _ => rfl

theorem confines_branch : (branches : List (Program α)) → (n : Nat) →
    (Operation.footprintOfBranches branches).Confines (m.branch branches n)
  | [], n => by
    rw [branch]
    exact .same fun _ _ _ => rfl
  | b :: branches, 0 => by
    rw [branch, Operation.footprintOfBranches]
    exact (confines_region b).mono (Footprint.within_append_left _ _)
  | b :: branches, n + 1 => by
    rw [branch, Operation.footprintOfBranches]
    exact (confines_branch branches n).mono (Footprint.within_append_right _ _)

end

theorem confines_after (info : OpInfo) (predicate : Slice) (condition body : Program α)
    (trips : Option Nat) (n : Nat) :
    (Operation.loop info predicate condition body trips).footprint.Confines
      (Turning.after predicate trips (m.region condition) (m.region body) n) := by
  rw [Operation.footprint]
  refine Turning.confines_after ?_ ((m.confines_region condition).mono ?_)
    ((m.confines_region body).mono ?_) n
  · simp [Footprint.mem_places, Footprint.touches, BufferUse.read]
  · exact (Footprint.within_append_left _ _).trans (Footprint.within_append_right _ _)
  · exact (Footprint.within_append_right _ _).trans (Footprint.within_append_right _ _)

end Meaning

end OpFlow
