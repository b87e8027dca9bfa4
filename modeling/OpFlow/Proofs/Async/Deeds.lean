import OpFlow.Async.Network
import OpFlow.Proofs.Async.Cells

/-!
What a step of a network does. There is one relation that says for every job what it changes, what it
wakes, what is to be done next and what is noted about it.
-/
namespace OpFlow.Async

variable {α κ : Type}

/-- How a cell has come about. -/
inductive Origin (α : Type)
  /-- It is settled by whoever keeps its promise. -/
  | promise
  /-- It has been settled from the start. -/
  | settled (result : Result α)
  | derived (source : Nat) (f : Content α → Result α)
  | joined (inputs : List Nat)

def errorIn : Option (Result α) → Option Error
  | some (.error e) => some e
  | _ => none

/-- What several outcomes come to: nothing while one is missing, then the error of the first that is
one, else success. -/
def joinOf (results : List (Option (Result α))) : Option (Result α) :=
  if results.all Option.isSome then
    some (match results.findSome? errorIn with
      | some e => .error e
      | none => .ok .done)
  else none

/-- What a cell of this origin is to be settled with, given what the others have been settled with. -/
def Origin.outcome? (o : Origin α) (results : Nat → Option (Result α)) : Option (Result α) :=
  match o with
  | promise => none
  | settled r => some r
  | derived source f => (results source).map (·.bind f)
  | joined inputs => joinOf (inputs.map results)

theorem isSome_of_joinOf {results : List (Option (Result α))} {r : Result α}
    (h : joinOf results = some r) : ∀ x ∈ results, x.isSome := by
  unfold joinOf at h
  split at h
  · exact List.all_eq_true.1 ‹_›
  · cases h

theorem Origin.outcome?_mono {o : Origin α} {results results' : Nat → Option (Result α)}
    (hmono : ∀ d r, results d = some r → results' d = some r) {r : Result α}
    (h : o.outcome? results = some r) : o.outcome? results' = some r := by
  cases o with
  | promise => cases h
  | settled r' => exact h
  | derived source f =>
    obtain ⟨x, hx, rfl⟩ := Option.map_eq_some_iff.1 h
    simp [Origin.outcome?, hmono source x hx]
  | joined inputs =>
    have hsame : inputs.map results' = inputs.map results := List.map_congr_left fun c hc => by
      obtain ⟨x, hx⟩ := Option.isSome_iff_exists.1 (isSome_of_joinOf h _ (List.mem_map_of_mem hc))
      rw [hx, hmono c x hx]
    exact (congrArg joinOf hsame).trans h

/-- What is noted of a network. -/
inductive Event (α : Type)
  /-- A cell has been made, or found to be there already. -/
  | made (cell : Nat) (origin : Origin α)
  | settled (cell : Nat) (result : Result α)
  /-- A continuation has been registered with a cell, under a number. -/
  | registered (ticket cell : Nat)
  /-- A continuation has begun to run. -/
  | ran (ticket : Nat)
  /-- Whoever has settled a cell has run all that waited for it. -/
  | returned (cell : Nat)

namespace NetworkOf

variable (n : NetworkOf α κ)

def noteMade (o : Origin α) : List (Event α) :=
  .made n.cells.size o :: ((o.outcome? n.cells.result?).map (.settled n.cells.size)).toList

/-- What is noted of a step, if it registers something under the number `t`. -/
def notes (t : Nat) : Job α → List (Event α)
  | .act .promise => n.noteMade .promise
  | .act (.settled r) => n.noteMade (.settled (r.map .value))
  | .act (.derive source f) =>
    match n.cellOf? source with
    | some c => n.noteMade (.derived c f)
    | none => []
  | .act (.join sources) =>
    match sources.mapM n.cellOf? with
    | some inputs =>
      match joinOf (inputs.map n.cells.result?) with
      | some (.ok _) => [.made 0 (.joined inputs)]
      | _ => n.noteMade (.joined inputs)
    | none => []
  | .act (.settle h r) =>
    match n.promised? h with
    | some c => [.settled c (r.map .value)]
    | none => []
  | .act (.follow h _) => (n.handles[h]?.map (.registered t)).toList
  | .act (.followEvent h _) => (n.eventHandles[h]?.map (.registered t)).toList
  | .act (.note _) | .act (.share _) | .act (.all _) => []
  | .attach c _ => [.registered t c]
  | .derive source target f =>
    match n.cells.result? source with
    | some r => [.settled target (r.bind f)]
    | none => []
  | .countDown _ => []
  | .complete inputs target => [.settled target (n.joined inputs)]

def Names (c : Nat) : Prop := ∃ source, n.cellOf? source = some c

def NamedAs (n' : NetworkOf α κ) (c : Nat) : Prop := n' = n.named c ∨ n' = n.namedEvent c

def Registers (j : Job α) (c : Nat) (k : Job α) : Prop :=
  j = .attach c k ∨ ∃ h next, k = .act next ∧
    (j = .act (.follow h next) ∧ n.handles[h]? = some c ∨
      j = .act (.followEvent h next) ∧ n.eventHandles[h]? = some c)

/-- What a job does, with what is noted of it. -/
inductive Deed (keep : Job α → κ) (t : Nat) : Job α → Turn α κ → List (Event α) → Prop
  | idle {a : Action α} : Deed keep t (.act a) { network := n } []
  | noted {a : Action α} {text : String} : Deed keep t (.act a) { network := n.note text } []
  | shared {a : Action α} {n' : NetworkOf α κ} {c : Nat} (hc : n.Names c) (hn : n.NamedAs n' c) :
    Deed keep t (.act a) { network := n' } []
  | split {actions : List (Action α)} :
    Deed keep t (.act (.all actions)) { network := n, next := actions.map .act } []
  | registered {j k : Job α} {c : Nat} (hj : n.Registers j c k) (hc : n.cells.result? c = none) :
    Deed keep t j { network := { n with cells := n.cells.register c (keep k) } } [.registered t c]
  | atOnce {j k : Job α} {c : Nat} (hj : n.Registers j c k) (hc : n.cells.isSettled c) :
    Deed keep t j { network := n, woken := [keep k] } [.registered t c]
  | promised :
    Deed keep t (.act .promise)
      { network := { (n.withCell none).named n.cells.size with
          promises := n.promises ++ [n.handles.size] } } [.made n.cells.size .promise]
  /-- A cell is made that has been settled from the start. -/
  | made {a : Action α} {n' : NetworkOf α κ} {o : Origin α} {r : Result α}
      (hn : (n.withCell (some r)).NamedAs n' n.cells.size) (ho : o.outcome? n.cells.result? = some r)
      (hrefs : ∀ c f, o = .derived c f → n.Names c)
      (hinputs : ∀ inputs, o = .joined inputs → ∀ c ∈ inputs, n.Names c) :
    Deed keep t (.act a) { network := n' } [.made n.cells.size o, .settled n.cells.size r]
  /-- A join has happened already. -/
  | trivial {a : Action α} {inputs : List Nat} (hinputs : ∀ c ∈ inputs, n.Names c)
      (ho : joinOf (inputs.map n.cells.result?) = some (.ok .done)) :
    Deed keep t (.act a) { network := n.namedEvent 0 } [.made 0 (.joined inputs)]
  | derived {source : Source} {c : Nat} {f : Content α → Result α} (hname : n.cellOf? source = some c)
      (hc : n.cells.result? c = none) :
    Deed keep t (.act (.derive source f))
      { network := (n.withCell none).named n.cells.size
        next := [.attach c (.derive c n.cells.size f)] } [.made n.cells.size (.derived c f)]
  | joined {sources : List Source} {inputs : List Nat} (hlength : inputs.length = sources.length)
      (hinputs : ∀ c ∈ inputs, n.Names c) (ho : joinOf (inputs.map n.cells.result?) = none) :
    Deed keep t (.act (.join sources))
      { network :=
          { (n.withCell none).namedEvent n.cells.size with
            joins := n.joins.push ⟨inputs, inputs.length, n.cells.size⟩ }
        next := inputs.map fun c => .attach c (.countDown n.joins.size) }
      [.made n.cells.size (.joined inputs)]
  /-- Somebody keeps a promise. -/
  | kept {h c : Nat} {r : Except Error α} (hc : n.promised? h = some c) :
    Deed keep t (.act (.settle h r))
      (settleCell { n with promises := n.promises.erase h } c (r.map .value))
      [.settled c (r.map .value)]
  | fired {source target : Nat} {f : Content α → Result α} {r : Result α}
      (hr : n.cells.result? source = some r) :
    Deed keep t (.derive source target f) (n.settleCell target (r.bind f))
      [.settled target (r.bind f)]
  | stuck {source target : Nat} {f : Content α → Result α} (hr : n.cells.result? source = none) :
    Deed keep t (.derive source target f) { network := n } []
  | uncounted {j : Nat} (hj : n.joins[j]? = none) : Deed keep t (.countDown j) { network := n } []
  | counted {j : Nat} {join : Join} (hj : n.joins[j]? = some join) :
    Deed keep t (.countDown j)
      { network :=
          { n with joins := n.joins.setIfInBounds j { join with remaining := join.remaining - 1 } }
        next := if join.remaining = 1 then [.complete join.inputs join.target] else [] } []
  | completed {inputs : List Nat} {target : Nat} :
    Deed keep t (.complete inputs target) (n.settleCell target (n.joined inputs))
      [.settled target (n.joined inputs)]

variable {n} {c : Nat}

theorem names_of_handle {h : Nat} (hc : n.handles[h]? = some c) : n.Names c := ⟨.value h, hc⟩

theorem names_of_eventHandle {h : Nat} (hc : n.eventHandles[h]? = some c) : n.Names c :=
  ⟨.event h, hc⟩

theorem joinOf_eq (inputs : List Nat) : joinOf (inputs.map n.cells.result?) =
    if inputs.all n.cells.isSettled then some (n.joined inputs) else none := by
  have herror : ∀ c, n.errorOf c = errorIn (n.cells.result? c) := fun c => by
    unfold errorOf errorIn
    split <;> simp_all
  have hall : (inputs.map n.cells.result?).all Option.isSome = inputs.all n.cells.isSettled :=
    List.all_map ..
  have hfirst : (inputs.map n.cells.result?).findSome? errorIn = inputs.findSome? n.errorOf := by
    rw [List.findSome?_map, funext herror, Function.comp_def]
  rw [joinOf, hall, hfirst]
  rfl

theorem joined_cases (inputs : List Nat) :
    n.joined inputs = .ok .done ∨ ∃ e, n.joined inputs = .error e := by
  unfold joined
  split
  · exact .inr ⟨_, rfl⟩
  · exact .inl rfl

theorem names_of_mapM {sources : List Source} {inputs : List Nat}
    (h : sources.mapM n.cellOf? = some inputs) :
    inputs.length = sources.length ∧ ∀ c ∈ inputs, n.Names c := by
  induction sources generalizing inputs with
  | nil =>
    obtain rfl : inputs = [] := by simpa using h.symm
    simp
  | cons source sources ih =>
    simp only [List.mapM_cons, Option.bind_eq_bind, Option.bind_eq_some_iff, Option.pure_def,
      Option.some.injEq] at h
    obtain ⟨c, hc, inputs', hinputs, rfl⟩ := h
    obtain ⟨hlength, hnames⟩ := ih hinputs
    refine ⟨by simp [hlength], fun c' hc' => ?_⟩
    rcases List.mem_cons.1 hc' with rfl | hc'
    · exact ⟨source, hc⟩
    · exact hnames c' hc'

variable (keep : Job α → κ) (t : Nat)

theorem deed_attach {j k : Job α} (hj : n.Registers j c k) :
    n.Deed keep t j (n.attach keep c k) [.registered t c] := by
  unfold attach
  split
  · exact .atOnce hj ‹_›
  · next h => exact .registered hj (Cells.isSettled_eq_false_iff.1 (Bool.eq_false_iff.2 h))

theorem noteMade_of_some {o : Origin α} {r : Result α} (h : o.outcome? n.cells.result? = some r) :
    n.noteMade o = [.made n.cells.size o, .settled n.cells.size r] := by
  simp [noteMade, h]

theorem noteMade_of_none {o : Origin α} (h : o.outcome? n.cells.result? = none) :
    n.noteMade o = [.made n.cells.size o] := by
  simp [noteMade, h]

theorem deed_derive {source : Source} (f : Content α → Result α) (hc : n.cellOf? source = some c) :
    n.Deed keep t (.act (.derive source f)) (n.derive c f) (n.noteMade (.derived c f)) := by
  unfold derive
  split
  · next r hr =>
    have ho : (Origin.derived c f).outcome? n.cells.result? = some (r.bind f) := by
      simp [Origin.outcome?, hr]
    rw [noteMade_of_some ho]
    exact .made (.inl rfl) ho (fun c' f' h => (Origin.derived.inj h).1 ▸ ⟨source, hc⟩) (by simp)
  · next hr =>
    rw [noteMade_of_none (by simp [Origin.outcome?, hr])]
    exact .derived hc hr

theorem deed_join {sources : List Source} {inputs : List Nat}
    (hlength : inputs.length = sources.length) (hinputs : ∀ c ∈ inputs, n.Names c) :
    n.Deed keep t (.act (.join sources)) (n.join inputs)
      (match joinOf (inputs.map n.cells.result?) with
        | some (.ok _) => [.made 0 (.joined inputs)]
        | _ => n.noteMade (.joined inputs)) := by
  have ho := joinOf_eq (n := n) inputs
  unfold join
  by_cases hall : inputs.all n.cells.isSettled
  · rw [if_pos hall] at ho ⊢
    rcases n.joined_cases inputs with h | ⟨e, h⟩
    · rw [h] at ho ⊢
      rw [ho]
      exact .trivial hinputs ho
    · rw [h] at ho ⊢
      rw [ho]
      dsimp only
      rw [noteMade_of_some (o := .joined inputs) ho]
      exact .made (.inr rfl) ho (by simp) fun inputs' h => (Origin.joined.inj h) ▸ hinputs
  · rw [if_neg hall] at ho ⊢
    rw [ho]
    dsimp only
    rw [noteMade_of_none (o := .joined inputs) ho]
    exact .joined hlength hinputs ho

theorem deed_act (a : Action α) : n.Deed keep t (.act a) (n.act keep a) (n.notes t (.act a)) := by
  cases a with
  | note text => exact .noted
  | promise =>
    rw [notes, noteMade_of_none rfl]
    exact .promised
  | settled r =>
    rw [notes, noteMade_of_some rfl]
    exact .made (.inl rfl) rfl (by simp) (by simp)
  | share h =>
    simp only [act, notes]
    cases hc : n.handles[h]? with
    | none => exact .idle
    | some c => exact .shared (names_of_handle hc) (.inl rfl)
  | derive source f =>
    simp only [act, notes]
    cases hc : n.cellOf? source with
    | none => exact .idle
    | some c => exact deed_derive keep t f hc
  | join sources =>
    simp only [act, notes]
    cases h : sources.mapM n.cellOf? with
    | none => exact .idle
    | some inputs => exact deed_join keep t (names_of_mapM h).1 (names_of_mapM h).2
  | settle h r =>
    simp only [act, notes]
    cases hc : n.promised? h with
    | none => exact .noted
    | some c => exact .kept hc
  | follow h next =>
    simp only [act, notes]
    cases hc : n.handles[h]? with
    | none => exact .idle
    | some c => exact deed_attach keep t (.inr ⟨h, next, rfl, .inl ⟨rfl, hc⟩⟩)
  | followEvent h next =>
    simp only [act, notes]
    cases hc : n.eventHandles[h]? with
    | none => exact .idle
    | some c => exact deed_attach keep t (.inr ⟨h, next, rfl, .inr ⟨rfl, hc⟩⟩)
  | all actions => exact .split

/-- Every step does one of these things. -/
theorem deed (j : Job α) : n.Deed keep t j (n.step keep j) (n.notes t j) := by
  cases j with
  | act a => exact deed_act keep t a
  | attach c k => exact deed_attach keep t (.inl rfl)
  | derive source target f =>
    simp only [step, notes]
    cases hr : n.cells.result? source with
    | none => exact .stuck hr
    | some r => exact .fired hr
  | countDown j =>
    simp only [step, notes]
    cases hj : n.joins[j]? with
    | none => exact .uncounted hj
    | some join => exact .counted hj
  | complete inputs target => exact .completed

end NetworkOf

end OpFlow.Async
