import OpFlow.Primitive

/-!
Drafts: programs as they are written down, with resources by name and nothing checked yet. Building
a draft makes its operations in order, nested regions before their owner, and stops at the first
that is refused. Every generator gets a resource of its own.
-/
namespace OpFlow

inductive Draft
  | copy (info : OpInfo) (src dst : Slice)
  | kernel (info : OpInfo) (name : String) (arguments results : List Slice) (grid : Grid)
  | infeed (info : OpInfo) (destinations : List Slice) (token : String)
  | outfeed (info : OpInfo) (sources : List Slice) (token : String)
  | advanceRandom (info : OpInfo) (state : Slice) (delta : Nat)
  | placeId (info : OpInfo) (axis : PlaceAxis) (destination : Slice)
  | collective (info : OpInfo) (exchange : Exchange) (op : Int) (groups : List (List Nat))
      (source destination : Slice) (communicator : String)
  | customCall (info : OpInfo) (target config : String) (operands results : List Slice)
  | scripted (info : OpInfo) (kind : OpKind) (buffers : List BufferUse)
      (resources : List (String × Access)) (script : Script)
  | call (info : OpInfo) (plain : Bool) (body : List Draft)
  | conditional (info : OpInfo) (plain : Bool) (index : Slice) (type : ElementType)
      (branches : List (List Draft))
  | loop (info : OpInfo) (plain : Bool) (predicate : Slice) (condition body : List Draft)
      (trips : Option Nat)
  deriving Inhabited

/-- The resources that programs share, by name; their numbers follow the order of the list. -/
abbrev ResourceNames := List (String × ResourceKind)

namespace ResourceNames

def find (names : ResourceNames) (name : String) : Except Error Resource :=
  match names.findIdx? fun n => n.1 = name, names.lookup name with
  | some i, some kind => .ok ⟨kind, i⟩
  | _, _ => .error (.notFound "resource" name)

def label (names : ResourceNames) (r : Resource) : String :=
  match names[r.id]? with
  | some (name, _) => name
  | none => r.kind.describe

end ResourceNames

structure RegionSettings where
  reduction : Bool := true
  verify : Bool := true
  deriving DecidableEq, Repr, Inhabited

namespace RegionSettings

/-- The defaults for an operation that is plain, else the given settings. -/
def unlessPlain (s : RegionSettings) (plain : Bool) : RegionSettings := if plain then {} else s

def region {β : Type} (s : RegionSettings) (ops : List β) : Region β :=
  ⟨ops, s.reduction, s.verify⟩

end RegionSettings

namespace Draft

abbrev Build (β : Type) := StateT Nat (Except Error) β

def newGenerator : Build Resource := do
  let id ← get
  set (id + 1)
  return ⟨.rngState, id⟩

mutual

def build (names : ResourceNames) (s : RegionSettings) : Draft → Build (Operation Primitive)
  | copy info src dst => do
    return .leaf info (← Primitive.copy? src dst)
  | kernel info name arguments results grid =>
    return .leaf info (.kernel name arguments results grid)
  | infeed info destinations token => do
    return .leaf info (.infeed destinations (← names.find token))
  | outfeed info sources token => do
    return .leaf info (.outfeed sources (← names.find token))
  | advanceRandom info state delta => do
    return .leaf info (← Primitive.advanceRandom? state delta (← newGenerator))
  | placeId info axis destination =>
    return .leaf info (.placeId axis destination)
  | collective info exchange op groups source destination communicator => do
    let resource ← names.find communicator
    let label := resource.kind.describe ++ "#" ++ communicator
    let c ← Collective.create ⟨exchange, op, groups, source, destination, resource⟩ label
    return .leaf info (.collective c)
  | customCall info target config operands results =>
    return .leaf info (.customCall target config operands results)
  | scripted info kind buffers resources script => do
    let uses ← resources.mapM fun r => do return ResourceUse.mk (← names.find r.1) r.2
    return .leaf info (.scripted kind ⟨buffers, uses⟩ script)
  | call info plain body => do
    return .call info ((s.unlessPlain plain).region (← buildAll names s body))
  | conditional info plain index type branches => do
    let branches ← buildBranches names s branches
    let s := s.unlessPlain plain
    Operation.conditional? info index type (branches.map s.region)
  | loop info plain predicate condition body trips => do
    let condition ← buildAll names s condition
    let body ← buildAll names s body
    let s := s.unlessPlain plain
    Operation.loop? info predicate (s.region condition) (s.region body) trips

def buildAll (names : ResourceNames) (s : RegionSettings) :
    List Draft → Build (List (Operation Primitive))
  | [] => return []
  | d :: ds => do return (← build names s d) :: (← buildAll names s ds)

def buildBranches (names : ResourceNames) (s : RegionSettings) :
    List (List Draft) → Build (List (List (Operation Primitive)))
  | [] => return []
  | b :: bs => do return (← buildAll names s b) :: (← buildBranches names s bs)

end

def program (names : ResourceNames) (s : RegionSettings) (next : Nat) (drafts : List Draft) :
    Except Error (Program Primitive × Nat) := do
  let (ops, next) ← (buildAll names s drafts).run next
  return (s.region ops, next)

end Draft

end OpFlow
