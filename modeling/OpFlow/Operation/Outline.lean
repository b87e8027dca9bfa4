import OpFlow.Draft

/-!
Programs in words: the outline of a region and its graph, the text of each operation with all its
fields, and notes on what was built, nested regions before their owner.
-/
namespace OpFlow

namespace Region

variable {α : Type} [Leaf α]

def outline (r : Program α) : String :=
  Text.bracketed (r.ops.map fun op =>
    "(" ++ op.kind.describe ++ ", " ++ Text.quoted op.info.name ++ ")")

def describe (r : Program α) : String :=
  Text.openRecord "ThunkExecutor"
    [("sequence", r.outline), ("edges", toString r.graph.edgeCount),
      ("verify_footprints", Text.boolean r.verify)]

def append (r s : Program α) : Program α := { r with ops := r.ops ++ s.ops }

end Region

/-- What is worth noting of an operation once it is built. -/
inductive Note
  | copy (src dst : Slice)
  | kernel (name : String) (threads : Nat)
  | call (length edges : Nat) (sequential : Bool)
  | conditional (branches : Nat)
  | loop (trips : Option Nat)
  | generator (kind : ResourceKind)
  | collective (exchange : Exchange)
  | customCall (target : String)
  deriving DecidableEq, Repr

namespace Primitive

def notes : Primitive → List Note
  | copy src dst => [.copy src dst]
  | kernel name _ _ grid => [.kernel name grid.count]
  | advanceRandom _ _ generator => [.generator generator.kind]
  | collective c => [.collective c.exchange]
  | customCall target _ _ _ => [.customCall target]
  | infeed _ _ | outfeed _ _ | placeId _ _ | scripted _ _ _ => []

def slicesText (ss : List Slice) : String := Text.bracketed (ss.map Slice.describe)

/-- The operation with its fields; resources by `label`. -/
def describe (label : Resource → String) (info : OpInfo) : Primitive → String
  | copy src dst =>
    Text.record "CopyThunk"
      [("info", info.describe), ("src", src.describe), ("dst", dst.describe)]
  | kernel name arguments results grid =>
    Text.openRecord "KernelThunk"
      [("info", info.describe), ("kernel_name", Text.quoted name),
        ("arguments", slicesText arguments), ("results", slicesText results),
        ("thread_dim", grid.describe)]
  | infeed destinations token =>
    Text.record "InfeedThunk"
      [("info", info.describe), ("destinations", slicesText destinations),
        ("token", label token)]
  | outfeed sources token =>
    Text.record "OutfeedThunk"
      [("info", info.describe), ("sources", slicesText sources), ("token", label token)]
  | advanceRandom state delta generator =>
    Text.record "RngGetAndUpdateStateThunk"
      [("info", info.describe), ("state_buffer", state.describe), ("delta", toString delta),
        ("state", Text.record "Mutex" [("data", toString 0x7012395)]),
        ("resource", label generator)]
  | placeId axis destination =>
    Text.record axis.kind.display
      [("info", info.describe), ("destination", destination.describe)]
  | collective c =>
    Text.record "CollectiveThunk"
      [("info", info.describe), ("op", c.exchange.describe),
        ("op_params", Text.record "CollectiveOpParams"
          [("op_id", toString c.op),
            ("replica_groups", Text.bracketed (c.groups.map fun g =>
              Text.bracketed (g.map toString)))]),
        ("source", c.source.describe), ("destination", c.destination.describe),
        ("communicator", label c.communicator)]
  | customCall target config operands results =>
    Text.record "CustomCallThunk"
      [("info", info.describe), ("target_name", Text.quoted target),
        ("backend_config", Text.quoted config), ("operands", slicesText operands),
        ("results", slicesText results)]
  | scripted _ _ _ => Text.record "ScriptThunk" [("info", info.describe)]

end Primitive

def IndexType.describe : IndexType → String
  | truth => "Pred"
  | number => "S32"

namespace Operation

/-- The operation with its fields; resources by `label`. -/
def describe (label : Resource → String) (op : Operation Primitive) : String :=
  match op with
  | leaf info a => a.describe label info
  | call info body =>
    Text.record "CallThunk" [("info", info.describe), ("called", body.describe)]
  | conditional info index type branches =>
    Text.record "ConditionalThunk"
      [("info", info.describe), ("branch_index", index.describe),
        ("index_type", type.describe),
        ("branches", Text.bracketed (branches.map Region.describe))]
  | loop info predicate condition body trips =>
    Text.record "WhileThunk"
      [("info", info.describe), ("predicate", predicate.describe),
        ("condition", condition.describe), ("body", body.describe),
        ("trip_count", Text.optional (trips.map toString))]

mutual

/-- The notes on an operation and on everything nested in it. -/
def notes : Operation Primitive → List Note
  | leaf _ a => a.notes
  | call _ body =>
    notesOfRegion body ++ [.call body.ops.length body.graph.edgeCount body.graph.isSequential]
  | conditional _ _ _ branches => notesOfBranches branches ++ [.conditional branches.length]
  | loop _ _ condition body trips =>
    notesOfRegion condition ++ notesOfRegion body ++ [.loop trips]

def notesOfRegion : Program Primitive → List Note
  | ⟨ops, _, _⟩ => notesOfOps ops

def notesOfOps : List (Operation Primitive) → List Note
  | [] => []
  | op :: ops => notes op ++ notesOfOps ops

def notesOfBranches : List (Program Primitive) → List Note
  | [] => []
  | b :: bs => notesOfRegion b ++ notesOfBranches bs

end

end Operation

/-- All pairs of nodes, and of a node and the place behind the last, whose footprints conflict; the
second is not before the first. -/
def Graph.conflictingPairs (g : Graph) : List (Nat × Nat) :=
  (List.range (g.size + 1)).flatMap fun a =>
    ((List.range (g.size + 1)).filter fun b => a ≤ b && g.conflicts a b).map fun b => (a, b)

/-- Builds programs in turn and appends each to those before. -/
def Draft.programs (names : ResourceNames) (s : RegionSettings) (drafts : List (List Draft)) :
    Except Error (Program Primitive) := do
  let (p, _) ← drafts.foldlM (fun (p, next) d => do
    let (q, next) ← Draft.program names s next d
    return (p.append q, next)) (s.region [], names.length)
  return p

end OpFlow
