import OpFlow.Proofs.Async.Crew

/-!
Networks on paper: which values there are to be and where they come from. What a value comes to
depends only on what is promised to it, through the values in between.
-/
namespace OpFlow.Async

variable {α : Type}

namespace Origin

def sources : Origin α → List Nat
  | promise | settled _ => []
  | derived source _ => [source]
  | joined inputs => inputs

def moved (place : Nat → Nat) : Origin α → Origin α
  | promise => promise
  | settled r => settled r
  | derived source f => derived (place source) f
  | joined inputs => joined (inputs.map place)

theorem moved_eq_promise {o : Origin α} {place : Nat → Nat} :
    o.moved place = promise ↔ o = promise := by
  cases o <;> simp [moved]

theorem outcome?_moved (o : Origin α) (place : Nat → Nat) (results : Nat → Option (Result α)) :
    (o.moved place).outcome? results = o.outcome? (results ∘ place) := by
  cases o <;> simp [moved, outcome?]

theorem outcome?_congr {o : Origin α} {results results' : Nat → Option (Result α)}
    (h : ∀ c ∈ o.sources, results c = results' c) : o.outcome? results = o.outcome? results' := by
  cases o with
  | promise | settled => rfl
  | derived source f => rw [outcome?, outcome?, h source List.mem_cons_self]
  | joined inputs => exact congrArg joinOf (List.map_congr_left h)

theorem isSome_outcome? {o : Origin α} (ho : o ≠ promise) (results : Nat → Option (Result α)) :
    (o.outcome? results).isSome ↔ ∀ c ∈ o.sources, (results c).isSome := by
  cases o with
  | promise => exact absurd rfl ho
  | settled r => simp [outcome?, sources]
  | derived source f => simp [outcome?, sources]
  | joined inputs =>
    have hall : (inputs.map results).all Option.isSome ↔ ∀ c ∈ inputs, (results c).isSome := by
      simp [List.all_map]
    rw [outcome?, joinOf, sources, ← hall]
    split <;> simp_all

/-- What a value comes to. A function is applied to a value and lets an error through; a join fails with
the error of the first input that failed. -/
inductive Gives (results : Nat → Option (Result α)) : Origin α → Result α → Prop
  | settled (r : Result α) : Gives results (settled r) r
  | applied {source : Nat} {f : Content α → Result α} {v : Content α}
      (hv : results source = some (.ok v)) : Gives results (derived source f) (f v)
  | passed {source : Nat} {f : Content α → Result α} {e : Error}
      (he : results source = some (.error e)) : Gives results (derived source f) (.error e)
  | joined {inputs : List Nat} (h : ∀ c ∈ inputs, ∃ v, results c = some (.ok v)) :
    Gives results (joined inputs) (.ok .done)
  | failed {inputs : List Nat} {m c : Nat} {e : Error} (hall : ∀ c ∈ inputs, (results c).isSome)
      (hm : inputs[m]? = some c) (he : results c = some (.error e))
      (hfirst : ∀ m' < m, ∀ c', inputs[m']? = some c' → ∃ v, results c' = some (.ok v)) :
    Gives results (joined inputs) (.error e)

theorem errorIn_eq_some {x : Option (Result α)} {e : Error} :
    errorIn x = some e ↔ x = some (.error e) := by
  rcases x with _ | _ | _ <;> simp [errorIn]

theorem errorIn_eq_none {x : Option (Result α)} (hx : x.isSome) :
    errorIn x = none ↔ ∃ v, x = some (.ok v) := by
  rcases x with _ | _ | _ <;> simp_all [errorIn]

theorem gives_of_joinOf {results : Nat → Option (Result α)} {inputs : List Nat} {r : Result α}
    (h : joinOf (inputs.map results) = some r) : Gives results (.joined inputs) r := by
  have hall : ∀ c ∈ inputs, (results c).isSome := fun c hc =>
    isSome_of_joinOf h _ (List.mem_map_of_mem hc)
  rw [joinOf, if_pos (List.all_eq_true.2 fun x hx => isSome_of_joinOf h x hx)] at h
  obtain rfl := Option.some.inj h
  split
  · next e he =>
    obtain ⟨before, x, after, hinputs, hx, hbefore⟩ := List.findSome?_eq_some_iff.1 he
    obtain ⟨cs, cs', rfl, rfl, hcs'⟩ := List.map_eq_append_iff.1 hinputs
    obtain ⟨c, cs', rfl, rfl, rfl⟩ := List.map_eq_cons_iff.1 hcs'
    refine .failed (m := cs.length) (c := c) hall (by simp) (errorIn_eq_some.1 hx) fun m' hm' c' hc' => ?_
    rw [List.getElem?_append_left hm'] at hc'
    have hmem := List.mem_of_getElem? hc'
    exact (errorIn_eq_none (hall c' (List.mem_append_left _ hmem))).1
      (hbefore _ (List.mem_map_of_mem hmem))
  · next hnone =>
    refine .joined fun c hc => (errorIn_eq_none (hall c hc)).1 ?_
    exact List.findSome?_eq_none_iff.1 hnone _ (List.mem_map_of_mem hc)

theorem gives_of_outcome? {o : Origin α} {results : Nat → Option (Result α)} {r : Result α}
    (h : o.outcome? results = some r) : Gives results o r := by
  cases o with
  | promise => cases h
  | settled r' => exact Option.some.inj h ▸ .settled r'
  | derived source f =>
    obtain ⟨x, hx, rfl⟩ := Option.map_eq_some_iff.1 h
    cases x with
    | ok v => exact .applied hx
    | error e => exact .passed hx
  | joined inputs => exact gives_of_joinOf h

end Origin

/-- The values of a network in an order in which each is made from earlier ones. A promised value is
one that is to be settled from outside. -/
structure Design (α : Type) where
  origins : List (Origin α)
  acyclic : ∀ (k : Nat) (o : Origin α), origins[k]? = some o → ∀ c ∈ o.sources, c < k

namespace Design

def outcome? (d : Design α) (promised : Nat → Option (Result α)) (k : Nat) : Option (Result α) :=
  match d.origins[k]? with
  | none => none
  | some .promise => promised k
  | some o => o.outcome? fun c => if c < k then d.outcome? promised c else none

/-- A value is made from a promised one, directly or not. -/
inductive Needs (d : Design α) (p : Nat) : Nat → Prop
  | promise (h : d.origins[p]? = some .promise) : Needs d p p
  | source {k c : Nat} {o : Origin α} (ho : d.origins[k]? = some o) (hc : c ∈ o.sources)
      (h : Needs d p c) : Needs d p k

theorem Needs.promised {d : Design α} {p k : Nat} (h : d.Needs p k) :
    d.origins[p]? = some .promise := by
  induction h with
  | promise h => exact h
  | source _ _ _ ih => exact ih

variable (d : Design α) (promised : Nat → Option (Result α)) {k : Nat} {o : Origin α}

theorem outcome?_promise (h : d.origins[k]? = some .promise) :
    d.outcome? promised k = promised k := by
  rw [outcome?, h]

theorem outcome?_eq (h : d.origins[k]? = some o) (ho : o ≠ .promise) :
    d.outcome? promised k = o.outcome? (d.outcome? promised) := by
  have hsources : o.outcome? (fun c => if c < k then d.outcome? promised c else none) =
      o.outcome? (d.outcome? promised) :=
    Origin.outcome?_congr fun c hc => if_pos (d.acyclic k o h c hc)
  rw [← hsources, outcome?, h]
  cases o with
  | promise => exact absurd rfl ho
  | settled | derived | joined => rfl

/-- A value comes to something as soon as, and not before, all promised ones that it is made from
have come to something. -/
theorem isSome_outcome? (hk : k < d.origins.length) :
    (d.outcome? promised k).isSome ↔ ∀ p, d.Needs p k → (promised p).isSome := by
  induction k using Nat.strongRecOn with
  | ind k ih =>
    obtain ⟨o, ho⟩ : ∃ o, d.origins[k]? = some o := ⟨_, List.getElem?_eq_getElem hk⟩
    by_cases hpromise : o = .promise
    · subst hpromise
      rw [d.outcome?_promise promised ho]
      refine ⟨fun h p hp => ?_, fun h => h k (.promise ho)⟩
      cases hp with
      | promise => exact h
      | source ho' hc =>
        rw [ho] at ho'
        cases ho'
        cases hc
    · rw [d.outcome?_eq promised ho hpromise, Origin.isSome_outcome? hpromise]
      have hlt : ∀ c ∈ o.sources, c < k := d.acyclic k o ho
      refine ⟨fun h p hp => ?_, fun h c hc => ?_⟩
      · cases hp with
        | promise ho' =>
          rw [ho] at ho'
          exact absurd (Option.some.inj ho') hpromise
        | source ho' hc hneeds =>
          rw [ho] at ho'
          obtain rfl := Option.some.inj ho'
          exact (ih _ (hlt _ hc) (Nat.lt_trans (hlt _ hc) hk)).1 (h _ hc) p hneeds
      · exact (ih c (hlt c hc) (Nat.lt_trans (hlt c hc) hk)).2 fun p hp =>
          h p (.source ho hc hp)

theorem outcome?_congr {promised' : Nat → Option (Result α)}
    (h : ∀ p, d.Needs p k → promised p = promised' p) :
    d.outcome? promised k = d.outcome? promised' k := by
  induction k using Nat.strongRecOn with
  | ind k ih =>
    cases ho : d.origins[k]? with
    | none => rw [outcome?, outcome?, ho]
    | some o =>
      by_cases hpromise : o = .promise
      · subst hpromise
        rw [d.outcome?_promise promised ho, d.outcome?_promise promised' ho, h k (.promise ho)]
      · rw [d.outcome?_eq promised ho hpromise, d.outcome?_eq promised' ho hpromise]
        exact Origin.outcome?_congr fun c hc =>
          ih c (d.acyclic k o ho c hc) fun p hp => h p (.source ho hc hp)

end Design

end OpFlow.Async
