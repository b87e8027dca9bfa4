import OpFlow.Graph.Hazards

/-!
The dependency graph of a sequence: one node per operation, and an edge from each operation to
those that must wait for it. Edges always lead forward in program order. Every edge is kept at both
of its ends: with the nodes that a node waits for, and with the nodes that wait for it.
-/
namespace OpFlow

structure Graph where
  footprints : Array Footprint
  /-- The nodes each node waits for, in increasing order. -/
  preds : Array (List Nat)
  /-- The nodes that wait for each node, in increasing order. -/
  succs : Array (List Nat)
  deriving DecidableEq, Repr, Inhabited

namespace Graph

def note (succs : Array (List Nat)) (b : Nat) (ps : List Nat) : Array (List Nat) :=
  ps.foldl (fun succs a => succs.modify a (· ++ [b])) succs

/-- The nodes from `b` on are noted in turn with the nodes that they wait for. -/
def noteAll (succs : Array (List Nat)) (b : Nat) : List (List Nat) → Array (List Nat)
  | [] => succs
  | ps :: rest => noteAll (note succs b ps) (b + 1) rest

def full (fs : List Footprint) : Graph :=
  let preds := predecessors fs
  ⟨fs.toArray, preds.toArray, noteAll (Array.replicate preds.length []) 0 preds⟩

def size (g : Graph) : Nat := g.preds.size

def predsOf (g : Graph) (i : Nat) : List Nat := g.preds[i]?.getD []
def succsOf (g : Graph) (i : Nat) : List Nat := g.succs[i]?.getD []

/-- Node `b` waits for node `a`. -/
def Edge (g : Graph) (a b : Nat) : Prop := a ∈ g.predsOf b

instance (g : Graph) (a b : Nat) : Decidable (g.Edge a b) := inferInstanceAs (Decidable (a ∈ _))

/-- Node `b` waits for node `a`, directly or through others. -/
inductive Reaches (g : Graph) : Nat → Nat → Prop
  | edge {a b : Nat} : g.Edge a b → Reaches g a b
  | tail {a b c : Nat} : Reaches g a b → g.Edge b c → Reaches g a c

/-- A path of two or more edges leads from `a` to `c`. -/
def Detours (g : Graph) (a c : Nat) : Prop := ∃ b, g.Edge a b ∧ g.Reaches b c

def sources (g : Graph) : List Nat := (List.range g.size).filter fun i => (g.predsOf i).isEmpty

def sinks (g : Graph) : List Nat := (List.range g.size).filter fun i => (g.succsOf i).isEmpty

def edgeCount (g : Graph) : Nat := g.succs.toList.flatten.length

def isSequential (g : Graph) : Bool :=
  (List.range g.size).all fun i => i == 0 || (g.predsOf i).contains (i - 1)

def conflicts (g : Graph) (a b : Nat) : Bool :=
  match g.footprints[a]?, g.footprints[b]? with
  | some f, some f' => f.conflicts f'
  | _, _ => false

@[simp] theorem size_full (fs : List Footprint) : (full fs).size = fs.length := by
  simp [full, size]

end Graph

end OpFlow
