import OpFlow.Collective.Transport
import OpFlow.Context

/-!
Primitive operations: the leaves of programs. Each declares the slices and resources it touches; the
constructors that can refuse their arguments do so before a program exists.
-/
namespace OpFlow

inductive PlaceAxis
  | replica
  | partition
  deriving DecidableEq, Repr, Inhabited

def PlaceAxis.kind : PlaceAxis → OpKind
  | replica => .replicaId
  | partition => .partitionId

def PlaceAxis.select : PlaceAxis → LogicalId → Nat
  | replica, l => l.replica
  | partition, l => l.computation

namespace Exchange

def opKind : Exchange → OpKind
  | allReduce _ _ => .allReduce
  | allGather => .allGather
  | reduceScatter _ _ => .reduceScatter
  | allToAll => .allToAll
  | permute _ => .collectivePermute

def describe : Exchange → String
  | allReduce k t =>
    Text.record "AllReduce" [("reduction", k.describe), ("dtype", t.describe)]
  | allGather => "AllGather"
  | reduceScatter k t =>
    Text.record "ReduceScatter" [("reduction", k.describe), ("dtype", t.describe)]
  | allToAll => "AllToAll"
  | permute pairs =>
    Text.record "CollectivePermute" [("source_target_pairs",
      Text.bracketed (pairs.map fun p =>
        "(" ++ toString p.1 ++ ", " ++ toString p.2 ++ ")"))]

def repeatedTarget? (seen : List Nat) : List (Nat × Nat) → Option Nat
  | [] => none
  | (_, t) :: pairs => if seen.contains t then some t else repeatedTarget? (t :: seen) pairs

end Exchange

/-- One participant's part in a collective operation. The pairs of a permute name replicas. -/
structure Collective where
  exchange : Exchange
  /-- The number on which all participants agree. -/
  op : Int
  /-- The groups of replicas that exchange with each other; none means one group of all. -/
  groups : List (List Nat)
  source : Slice
  destination : Slice
  communicator : Resource
  deriving DecidableEq, Repr, Inhabited

namespace Collective

/-- A collective operation, refused when its communicator is none or a replica would receive from
two others. `label` is how the communicator is called. -/
def create (c : Collective) (label : String) : Except Error Collective :=
  if c.communicator.kind ≠ .communicator then
    .error (.invalidArgument (label ++ " is not a collective communicator"))
  else match c.exchange with
    | .permute pairs =>
      match Exchange.repeatedTarget? [] pairs with
      | some t => .error (.invalidArgument
          ("replica " ++ toString t ++ " is the target of more than one permute pair"))
      | none => .ok c
    | _ => .ok c

/-- A participant's group: its devices in the order of their ranks, and the participant's own rank
and computation. -/
structure Membership where
  devices : List DeviceId
  rank : Nat
  computation : Nat
  deriving DecidableEq, Repr, Inhabited

/-- The group of replicas to which a replica belongs. -/
def groupOf (c : Collective) (info : OpInfo) (a : DeviceAssignment) (replica : Nat) :
    Except Error (List Nat) :=
  if c.groups.isEmpty then .ok (List.range a.replicas)
  else match c.groups.find? fun g => g.contains replica with
    | some g => .ok g
    | none => .error (.configuration ("replica " ++ toString replica ++
        " is not in any replica group of " ++ info.display))

def deviceOf (a : DeviceAssignment) (computation replica : Nat) : Except Error DeviceId :=
  match a.get? replica computation with
  | some d => .ok d
  | none => .error (.configuration
      ("replica " ++ toString replica ++ " is outside the device assignment"))

/-- Where the device of a run stands in its group. -/
def membership (c : Collective) (info : OpInfo) (ctx : CollectiveContext) :
    Except Error Membership := do
  let me ← ctx.assignment.logicalId ctx.device
  let group ← c.groupOf info ctx.assignment me.replica
  let devices ← group.mapM (deviceOf ctx.assignment me.computation)
  match group.idxOf? me.replica with
  | some rank => return ⟨devices, rank, me.computation⟩
  | none => throw (.internal "caller missing from its own replica group")

def rankOf? (a : DeviceAssignment) (m : Membership) (replica : Nat) : Option Nat :=
  (a.get? replica m.computation).bind fun d => m.devices.idxOf? d

/-- The exchange as the transport sees it: pairs of ranks, without those that leave the group. -/
def exchangeIn (c : Collective) (a : DeviceAssignment) (m : Membership) : Exchange :=
  match c.exchange with
  | .permute pairs => .permute (pairs.filterMap fun p => do
      return (← rankOf? a m p.1, ← rankOf? a m p.2))
  | e => e

/-- The blocks that a participant contributes: equal shares for all ranks in an all-to-all, and
everything in one block otherwise. -/
def blocks (c : Collective) (n : Nat) (input : Bytes) : Except Error (List Bytes) :=
  if c.exchange = .allToAll then
    if n = 0 ∨ input.length % n ≠ 0 then
      .error (.invalidArgument (toString input.length ++ " bytes cannot be split into " ++
        toString n ++ " all-to-all chunks"))
    else .ok (input.blocks (input.length / n) n)
  else .ok [input]

end Collective

/-- What a scripted operation does when it is called. -/
inductive Script
  | succeed
  | write (slice : Slice) (bytes : Bytes)
  | fail (error : Error)
  | panic (text : String)
  /-- It ends when somebody outside says so. -/
  | defer
  deriving Repr, Inhabited

inductive Primitive
  | copy (src dst : Slice)
  | kernel (name : String) (arguments results : List Slice) (grid : Grid)
  | infeed (destinations : List Slice) (token : Resource)
  | outfeed (sources : List Slice) (token : Resource)
  /-- Writes the state of a generator of its own and advances it by `delta`. -/
  | advanceRandom (state : Slice) (delta : Nat) (generator : Resource)
  | placeId (axis : PlaceAxis) (destination : Slice)
  | collective (c : Collective)
  | customCall (target config : String) (operands results : List Slice)
  | scripted (kind : OpKind) (footprint : Footprint) (script : Script)
  deriving Repr, Inhabited

namespace Primitive

/-- A copy, refused when the slices differ in size. -/
def copy? (src dst : Slice) : Except Error Primitive :=
  if src.size ≠ dst.size then
    .error (.invalidArgument ("copy source " ++ src.describe ++ " and destination " ++
      dst.describe ++ " differ in size"))
  else .ok (.copy src dst)

/-- A generator step, refused when its slice does not hold the state. -/
def advanceRandom? (state : Slice) (delta : Nat) (generator : Resource) :
    Except Error Primitive :=
  if state.size ≠ 16 then
    .error (.invalidArgument ("rng state buffer " ++ state.describe ++ " must be 16 bytes"))
  else .ok (.advanceRandom state delta generator)

def kind : Primitive → OpKind
  | copy _ _ => .copy
  | kernel _ _ _ _ => .kernel
  | infeed _ _ => .infeed
  | outfeed _ _ => .outfeed
  | advanceRandom _ _ _ => .rngState
  | placeId axis _ => axis.kind
  | collective c => c.exchange.opKind
  | customCall _ _ _ _ => .customCall
  | scripted k _ _ => k

def footprint : Primitive → Footprint
  | copy src dst => { buffers := [.read src, .write dst] }
  | kernel _ arguments results _ => { buffers := arguments.map .read ++ results.map .write }
  | infeed destinations token =>
    { buffers := destinations.map .write, resources := [.write token] }
  | outfeed sources token => { buffers := sources.map .read, resources := [.write token] }
  | advanceRandom state _ generator =>
    { buffers := [.write state], resources := [.write generator] }
  | placeId _ destination => { buffers := [.write destination] }
  | collective c =>
    { buffers := [.read c.source, .write c.destination], resources := [.write c.communicator] }
  | customCall _ _ operands results =>
    { buffers := operands.map .read ++ results.map .write }
  | scripted _ f _ => f

instance : Leaf Primitive := ⟨kind, footprint⟩

end Primitive

end OpFlow
