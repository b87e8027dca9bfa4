import OpFlow.Async.Cell

/-!
Networks of asynchronous values: cells settled through promises, values derived from others, joins
that wait for all their inputs, and continuations. Everything is done in steps, each of which touches
one cell at most. Settling a cell runs its waiters in the order of their registration, each with
everything it sets off before the next; a waiter on a settled cell runs at once.
-/
namespace OpFlow.Async

/-- What a cell may come to hold: a value, or the mere completion of something. -/
inductive Content (α : Type)
  | done
  | value (a : α)
  deriving DecidableEq, Repr

abbrev Result (α : Type) := Except Error (Content α)

/-- A value or an event, by its handle. -/
inductive Source
  | value (handle : Nat)
  | event (handle : Nat)
  deriving DecidableEq, Repr

/-- What a thread or a continuation may do. Values, events and promises go by handles, looked up when
it is done. -/
inductive Action (α : Type)
  | note (text : String)
  /-- A pending value whose promise is to be kept. -/
  | promise
  /-- A value that is there, or has failed, from the start. -/
  | settled (result : Except Error α)
  /-- Another handle for a value. -/
  | share (of : Nat)
  /-- A value computed from another once that is there; an error goes through unchanged. -/
  | derive (source : Source) (f : Content α → Result α)
  /-- The completion of all sources. -/
  | join (sources : List Source)
  /-- Keeps a promise. -/
  | settle (promise : Nat) (result : Except Error α)
  | follow (source : Nat) (next : Action α)
  | followEvent (event : Nat) (next : Action α)
  | all (actions : List (Action α))

def Action.drop {α : Type} (promise : Nat) : Action α := .settle promise (.error .promiseDropped)

/-- Something to be done, now or once a cell is settled. -/
inductive Job (α : Type)
  | act (action : Action α)
  /-- Run a job once a cell is settled. -/
  | attach (cell : Nat) (job : Job α)
  | derive (source target : Nat) (f : Content α → Result α)
  | countDown (join : Nat)
  /-- All inputs of a join have been counted down. -/
  | complete (inputs : List Nat) (target : Nat)

structure Join where
  inputs : List Nat
  remaining : Nat
  target : Nat
  deriving DecidableEq, Repr, Inhabited

/-- Cells with what waits for them, which is kept as `κ`. -/
structure NetworkOf (α κ : Type) where
  /-- The cell of number zero has been done from the start; every trivial join is this one. -/
  cells : Cells (Content α) κ := #[{ result := some (.ok .done) }]
  joins : Array Join := #[]
  /-- The cell of each value handle. -/
  handles : Array Nat := #[]
  /-- The cell of each event handle. -/
  eventHandles : Array Nat := #[]
  /-- The handles given out with a promise that is still to be kept. -/
  promises : List Nat := []
  journal : List String := []

abbrev Network (α : Type) := NetworkOf α (Job α)

/-- What one step comes to. -/
structure Turn (α κ : Type) where
  network : NetworkOf α κ
  /-- The waiters that are to run now. -/
  woken : List κ := []
  /-- What else is to be done right after. -/
  next : List (Job α) := []

mutual

/-- An upper bound of the steps that an action takes, with everything that it registers. -/
def Action.size {α : Type} : Action α → Nat
  | .note _ | .promise | .settled _ | .share _ | .settle _ _ => 1
  | .derive _ _ => 3
  | .join sources => 4 * sources.length + 1
  | .follow _ next | .followEvent _ next => next.size + 1
  | .all actions => sizeOfAll actions + 1

def sizeOfAll {α : Type} : List (Action α) → Nat
  | [] => 0
  | a :: as => a.size + sizeOfAll as

end

def Job.size {α : Type} : Job α → Nat
  | act a => a.size
  | attach _ j => j.size + 1
  | derive _ _ _ | complete _ _ => 1
  | countDown _ => 2

def sizes {α : Type} : List (Job α) → Nat
  | [] => 0
  | j :: js => j.size + sizes js

namespace NetworkOf

variable {α κ : Type}

def note (n : NetworkOf α κ) (text : String) : NetworkOf α κ := { n with journal := n.journal ++ [text] }

/-- The cell of a value or an event, if there is one of that handle. -/
def cellOf? (n : NetworkOf α κ) : Source → Option Nat
  | .value h => n.handles[h]?
  | .event h => n.eventHandles[h]?

/-- The cell of a promise that is still to be kept. -/
def promised? (n : NetworkOf α κ) (h : Nat) : Option Nat :=
  if n.promises.contains h then n.handles[h]? else none

def named (n : NetworkOf α κ) (c : Nat) : NetworkOf α κ := { n with handles := n.handles.push c }

def namedEvent (n : NetworkOf α κ) (c : Nat) : NetworkOf α κ :=
  { n with eventHandles := n.eventHandles.push c }

def withCell (n : NetworkOf α κ) (r : Option (Result α)) : NetworkOf α κ :=
  { n with cells := n.cells.add r }

def errorOf (n : NetworkOf α κ) (c : Nat) : Option Error :=
  match n.cells.result? c with
  | some (.error e) => some e
  | _ => none

def joined (n : NetworkOf α κ) (inputs : List Nat) : Result α :=
  match inputs.findSome? n.errorOf with
  | some e => .error e
  | none => .ok .done

def settleCell (n : NetworkOf α κ) (c : Nat) (r : Result α) : Turn α κ :=
  let (cells, woken) := n.cells.settle c r
  { network := { n with cells }, woken }

def attach (keep : Job α → κ) (n : NetworkOf α κ) (c : Nat) (j : Job α) : Turn α κ :=
  if n.cells.isSettled c then { network := n, woken := [keep j] }
  else { network := { n with cells := n.cells.register c (keep j) } }

/-- Derives a value. What is derived from a settled cell is settled from the start. -/
def derive (n : NetworkOf α κ) (c : Nat) (f : Content α → Result α) : Turn α κ :=
  let target := n.cells.size
  match n.cells.result? c with
  | some r => { network := (n.withCell (some (r.bind f))).named target }
  | none =>
    { network := (n.withCell none).named target, next := [.attach c (.derive c target f)] }

/-- Joins cells. If all are settled the join has happened already. -/
def join (n : NetworkOf α κ) (inputs : List Nat) : Turn α κ :=
  let target := n.cells.size
  if inputs.all n.cells.isSettled then
    match n.joined inputs with
    | .ok _ => { network := n.namedEvent 0 }
    | .error e => { network := (n.withCell (some (.error e))).namedEvent target }
  else
    { network :=
        { (n.withCell none).namedEvent target with
          joins := n.joins.push ⟨inputs, inputs.length, target⟩ }
      next := inputs.map fun c => .attach c (.countDown n.joins.size) }

/-- One step of an action. Nothing comes of a handle that does not exist. -/
def act (keep : Job α → κ) (n : NetworkOf α κ) : Action α → Turn α κ
  | .note text => { network := n.note text }
  | .promise =>
    { network := { (n.withCell none).named n.cells.size with
        promises := n.promises ++ [n.handles.size] } }
  | .settled r => { network := (n.withCell (some (r.map .value))).named n.cells.size }
  | .share h =>
    match n.handles[h]? with
    | some c => { network := n.named c }
    | none => { network := n }
  | .derive source f =>
    match n.cellOf? source with
    | some c => n.derive c f
    | none => { network := n }
  | .join sources =>
    match sources.mapM n.cellOf? with
    | some inputs => n.join inputs
    | none => { network := n }
  | .settle h r =>
    match n.promised? h with
    | some c => { n with promises := n.promises.erase h }.settleCell c (r.map .value)
    | none => { network := n.note "no promise" }
  | .follow h next =>
    match n.handles[h]? with
    | some c => n.attach keep c (.act next)
    | none => { network := n }
  | .followEvent h next =>
    match n.eventHandles[h]? with
    | some c => n.attach keep c (.act next)
    | none => { network := n }
  | .all actions => { network := n, next := actions.map .act }

/-- One step of a job. What is registered is kept as `keep` says. -/
def step (keep : Job α → κ) (n : NetworkOf α κ) : Job α → Turn α κ
  | .act a => n.act keep a
  | .attach c j => n.attach keep c j
  | .derive source target f =>
    match n.cells.result? source with
    | some r => n.settleCell target (r.bind f)
    | none => { network := n }
  | .countDown j =>
    match n.joins[j]? with
    | some join =>
      { network :=
          { n with joins := n.joins.setIfInBounds j { join with remaining := join.remaining - 1 } }
        next := if join.remaining = 1 then [.complete join.inputs join.target] else [] }
    | none => { network := n }
  | .complete inputs target => n.settleCell target (n.joined inputs)

def result? (n : NetworkOf α κ) (h : Nat) : Option (Except Error α) :=
  (n.handles[h]?.bind n.cells.result?).bind fun r => match r with
    | .ok (.value a) => some (.ok a)
    | .ok .done => none
    | .error e => some (.error e)

def eventResult? (n : NetworkOf α κ) (h : Nat) : Option (Except Error Unit) :=
  (n.eventHandles[h]?.bind n.cells.result?).map fun r => r.map fun _ => ()

end NetworkOf

namespace Network

variable {α : Type}

def waiting (n : Network α) : Nat := sizes (n.cells.toList.flatMap Cell.waiters)

/-- Does jobs one after the other, each with all that it sets off, for `steps` steps. -/
def runFor : Nat → Network α → List (Job α) → Network α
  | 0, n, _ => n
  | _ + 1, n, [] => n
  | steps + 1, n, j :: js =>
    let turn := n.step id j
    runFor steps turn.network (turn.woken ++ turn.next ++ js)

/-- Does jobs until none is left. Every step uses up a part of the work. -/
def run (n : Network α) (js : List (Job α)) : Network α :=
  runFor (n.waiting + sizes js) n js

def perform (n : Network α) (a : Action α) : Network α := n.run [.act a]

end Network

end OpFlow.Async
