import OpFlow.Buffer.Arena
import OpFlow.Element
import OpFlow.Graph.Reduction

/-!
Operations and the regions they form. A region is an ordered list of operations: a whole program, a
branch, or a loop body. An operation is a leaf, whose meaning a backend gives, or it runs nested
regions: a call, a choice between branches, or a loop. The footprint of a control-flow operation is
everything its nested regions may touch, together with the slice that steers it.
-/
namespace OpFlow

inductive OpKind
  | allGather | allReduce | allToAll | call | collectivePermute | copy | conditional
  | convolution | customCall | dot | fft | infeed | kernel | outfeed | partitionId
  | reduceScatter | replicaId | rngState | loop
  deriving DecidableEq, Repr, Inhabited

namespace OpKind

def all : List OpKind :=
  [allGather, allReduce, allToAll, call, collectivePermute, copy, conditional, convolution,
    customCall, dot, fft, infeed, kernel, outfeed, partitionId, reduceScatter, replicaId, rngState,
    loop]

def display : OpKind → String
  | allGather => "all-gather"
  | allReduce => "all-reduce"
  | allToAll => "all-to-all"
  | call => "call"
  | collectivePermute => "collective-permute"
  | copy => "copy"
  | conditional => "conditional"
  | convolution => "convolution"
  | customCall => "custom-call"
  | dot => "dot"
  | fft => "fft"
  | infeed => "infeed"
  | kernel => "kernel"
  | outfeed => "outfeed"
  | partitionId => "partition-id"
  | reduceScatter => "reduce-scatter"
  | replicaId => "replica-id"
  | rngState => "rng-get-and-update-state"
  | loop => "while"

def describe : OpKind → String
  | allGather => "AllGather"
  | allReduce => "AllReduce"
  | allToAll => "AllToAll"
  | call => "Call"
  | collectivePermute => "CollectivePermute"
  | copy => "Copy"
  | conditional => "Conditional"
  | convolution => "Convolution"
  | customCall => "CustomCall"
  | dot => "Dot"
  | fft => "Fft"
  | infeed => "Infeed"
  | kernel => "Kernel"
  | outfeed => "Outfeed"
  | partitionId => "PartitionId"
  | reduceScatter => "ReduceScatter"
  | replicaId => "ReplicaId"
  | rngState => "RngGetAndUpdateState"
  | loop => "While"

def isCollective : OpKind → Bool
  | allGather | allReduce | allToAll | collectivePermute | reduceScatter => true
  | _ => false

def needsDevices : OpKind → Bool
  | replicaId | partitionId => true
  | k => k.isCollective

theorem mem_all (k : OpKind) : k ∈ all := by cases k <;> decide

end OpKind

/-- What every leaf operation declares about itself. -/
class Leaf (α : Type) where
  kind : α → OpKind
  footprint : α → Footprint

/-- An ordered list of operations and how it is to be scheduled: whether its graph is reduced, and
whether every launch is checked against the operations in flight. -/
structure Region (β : Type) where
  ops : List β
  reduction : Bool := true
  verify : Bool := true
  deriving Repr, Inhabited

/-- How a branch is chosen: by a truth value or by a signed number of 32 bits. -/
inductive IndexType
  | truth
  | number
  deriving DecidableEq, Repr

namespace IndexType

def width : IndexType → Nat
  | truth => 1
  | number => 4

/-- The branch that the index bytes choose among `count`. Truth chooses the first and falsehood the
second; a number that names no branch chooses the last. -/
def choose (t : IndexType) (count : Nat) (bytes : Bytes) : Nat :=
  match t with
  | truth => if bytes.head?.any (· != 0) then 0 else 1
  | number =>
    let n := bytes.toInt
    if 0 ≤ n ∧ n < count then n.toNat else count - 1

end IndexType

inductive Operation (α : Type)
  | leaf (info : OpInfo) (act : α)
  | call (info : OpInfo) (body : Region (Operation α))
  | conditional (info : OpInfo) (index : Slice) (type : IndexType)
      (branches : List (Region (Operation α)))
  | loop (info : OpInfo) (predicate : Slice) (condition body : Region (Operation α))
      (trips : Option Nat)

abbrev Program (α : Type) := Region (Operation α)

instance {α : Type} [Inhabited α] : Inhabited (Operation α) := ⟨.leaf default default⟩

namespace Operation

variable {α : Type}

def info : Operation α → OpInfo
  | leaf i _ | call i _ | conditional i _ _ _ | loop i _ _ _ _ => i

def kind [Leaf α] : Operation α → OpKind
  | leaf _ a => Leaf.kind a
  | call _ _ => .call
  | conditional _ _ _ _ => .conditional
  | loop _ _ _ _ _ => .loop

/-- The regions that an operation runs inside itself. -/
def nested : Operation α → List (Program α)
  | leaf _ _ => []
  | call _ body => [body]
  | conditional _ _ _ branches => branches
  | loop _ _ condition body _ => [condition, body]

mutual

/-- Everything an operation may touch, at any depth. -/
def footprint [Leaf α] : Operation α → Footprint
  | leaf _ a => Leaf.footprint a
  | call _ body => footprintOfRegion body
  | conditional _ index _ branches =>
    { buffers := [.read index] } ++ footprintOfBranches branches
  | loop _ predicate condition body _ =>
    { buffers := [.read predicate] } ++ (footprintOfRegion condition ++ footprintOfRegion body)

def footprintOfRegion [Leaf α] : Program α → Footprint
  | ⟨ops, _, _⟩ => footprintOfOps ops

def footprintOfOps [Leaf α] : List (Operation α) → Footprint
  | [] => .empty
  | op :: ops => footprint op ++ footprintOfOps ops

def footprintOfBranches [Leaf α] : List (Program α) → Footprint
  | [] => .empty
  | b :: bs => footprintOfRegion b ++ footprintOfBranches bs

end

mutual

/-- Whether an operation of such a kind occurs, at any depth. -/
def containsKind [Leaf α] (p : OpKind → Bool) : Operation α → Bool
  | leaf _ a => p (Leaf.kind a)
  | call _ body => p .call || regionContainsKind p body
  | conditional _ _ _ branches => p .conditional || branchesContainKind p branches
  | loop _ _ condition body _ =>
    p .loop || regionContainsKind p condition || regionContainsKind p body

def regionContainsKind [Leaf α] (p : OpKind → Bool) : Program α → Bool
  | ⟨ops, _, _⟩ => opsContainKind p ops

def opsContainKind [Leaf α] (p : OpKind → Bool) : List (Operation α) → Bool
  | [] => false
  | op :: ops => containsKind p op || opsContainKind p ops

def branchesContainKind [Leaf α] (p : OpKind → Bool) : List (Program α) → Bool
  | [] => false
  | b :: bs => regionContainsKind p b || branchesContainKind p bs

end

/-- A choice between branches, refused when its index cannot choose among them. -/
def conditional? (info : OpInfo) (index : Slice) (type : ElementType)
    (branches : List (Program α)) : Except Error (Operation α) := do
  let type' ← match type with
    | .pred =>
      if branches.length ≠ 2 then
        throw (.invalidArgument ("predicated conditional needs exactly 2 branches, got " ++
          toString branches.length))
      else pure IndexType.truth
    | .s32 => pure IndexType.number
    | other => throw (.invalidArgument ("unsupported branch index type " ++ other.describe))
  if branches.isEmpty then throw (.invalidArgument "conditional without branches")
  if index.size ≠ type'.width then
    throw (.invalidArgument
      ("branch index " ++ index.describe ++ " does not hold one " ++ type.describe))
  return .conditional info index type' branches

/-- A loop, refused when its predicate is not a single byte. -/
def loop? (info : OpInfo) (predicate : Slice) (condition body : Program α) (trips : Option Nat) :
    Except Error (Operation α) :=
  if predicate.size ≠ 1 then
    .error (.invalidArgument ("loop predicate " ++ predicate.describe ++ " is not a single pred"))
  else .ok (.loop info predicate condition body trips)

end Operation

namespace Region

variable {α : Type} [Leaf α]

def footprints (r : Program α) : List Footprint := r.ops.map Operation.footprint

def footprint (r : Program α) : Footprint := .concat r.footprints

def graph (r : Program α) : Graph := .build r.reduction r.footprints

def containsKind (r : Program α) (p : OpKind → Bool) : Bool := Operation.regionContainsKind p r

theorem length_footprints (r : Program α) : r.footprints.length = r.ops.length := List.length_map _

end Region

end OpFlow
