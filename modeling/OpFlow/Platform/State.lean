import OpFlow.Feed
import OpFlow.Machine
import OpFlow.Primitive

/-!
The state that primitive operations act on: an arena, feeds and an allocator for each host, and for
all hosts together the transport of their exchanges with its timers, the generators, and whatever is
in flight.
-/
namespace OpFlow

open Machine (CallKey Effect)

/-- How the threads of a kernel run: one after the other, each at once as a task of its own, or on a
runner. -/
inductive ThreadMode
  | inOrder
  | inline
  | onRunner (runner : Nat)
  deriving DecidableEq, Repr, Inhabited

/-- Who waits for a buffer of an infeed: a part of an operation, and where its bytes go. -/
structure FeedTaker where
  intake : Nat
  part : Nat
  destination : Slice
  deriving DecidableEq, Repr, Inhabited

/-- Parts of one operation that end one by one. The operation ends with the last of them. -/
structure Gathering where
  call : CallKey
  remaining : Nat
  /-- The parts that went away without an outcome. -/
  lost : Nat := 0
  firstError : Option (Nat × Error) := none
  deriving Inhabited

namespace Gathering

/-- One part has ended; the error of the lowest part is kept. -/
def ended (g : Gathering) (part : Nat) (o : Outcome) : Gathering :=
  let firstError := match o, g.firstError with
    | .ok (), first => first
    | .error e, none => some (part, e)
    | .error e, some (p, e') => if part < p then some (part, e) else some (p, e')
  { g with remaining := g.remaining - 1, firstError }

def lose (g : Gathering) : Gathering := { g with remaining := g.remaining - 1, lost := g.lost + 1 }

/-- What the operation ends with once no part is left. -/
def outcome? (g : Gathering) : Option Outcome :=
  if g.remaining ≠ 0 then none
  else if g.lost ≠ 0 then some (.error .promiseDropped)
  else match g.firstError with
    | some (_, e) => some (.error e)
    | none => some (.ok ())

end Gathering

/-- A kernel whose threads run as tasks. -/
structure GridRun where
  gathering : Gathering
  kernel : Kernel
  arguments : List Slice
  results : List Slice
  grid : Grid

/-- A participant of an exchange who waits for the others. -/
structure Participant where
  call : CallKey
  exchange : Exchange
  rank : Nat
  /-- The cell of the group in its rendezvous. -/
  cell : Nat
  destination : Slice
  deriving Repr, Inhabited

/-- Work that operations leave behind: going on with an exchange that was joined, handing out its
results, or one thread of a kernel. -/
inductive Work
  /-- The participant has arrived, and does not know yet whether the exchange has ended since. -/
  | attend (participant : Participant)
  /-- The participant has arrived last, and has the contributions of all. -/
  | resolve (values : List (List Bytes)) (participant : Participant)
  /-- The last participant is the one whose arrival completed the exchange. -/
  | handOut (participants : List Participant)
  | thread (gridRun linear : Nat)

structure HostState where
  arena : Arena
  context : RunContext := {}
  threads : ThreadMode := .inOrder
  allocator : Option Allocator := none
  feeds : FeedPair FeedTaker Nat := {}
  /-- What the host has taken from the outfeed; none while it waits. -/
  outfed : Array (Option Bytes) := #[]
  deriving Inhabited

structure Platform where
  hosts : Array HostState := #[]
  transport : Transport Participant
  timers : Timers Expiry := {}
  /-- The state of each generator that has been used. -/
  generators : Assoc Nat Nat := {}
  gridRuns : Array GridRun := #[]
  intakes : Array Gathering := #[]
  /-- Operations that end when somebody outside says so; none once they have. -/
  deferred : Array (Option CallKey) := #[]
  deriving Inhabited

namespace Platform

def host? (p : Platform) (h : Nat) : Option HostState := p.hosts[h]?

def modifyHost (p : Platform) (h : Nat) (f : HostState → HostState) : Platform :=
  { p with hosts := p.hosts.modify h f }

def arenaOf (p : Platform) (h : Nat) : Arena := ((p.host? h).map HostState.arena).getD ⟨#[]⟩

def contextOf (p : Platform) (h : Nat) : RunContext :=
  ((p.host? h).map HostState.context).getD {}

def setArena (p : Platform) (h : Nat) (arena : Arena) : Platform :=
  p.modifyHost h fun s => { s with arena }

def onArena (p : Platform) (h : Nat) (f : Arena → Except Error Arena) : Platform × Outcome :=
  match f (p.arenaOf h) with
  | .ok arena => (p.setArena h arena, .ok ())
  | .error e => (p, .error e)

def deferredCount (p : Platform) : Nat := (p.deferred.toList.filter Option.isSome).length

end Platform

end OpFlow
