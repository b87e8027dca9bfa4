import OpFlow.Error
import OpFlow.Graph

/-!
The schedule of one concurrent run of a region. Each node counts the predecessors that have not
completed, and is released when the count comes to zero. A node is poisoned, and then skipped, when
a predecessor failed or was skipped. The run ends when all nodes have completed, with the error of
the earliest node that failed.
-/
namespace OpFlow

structure Schedule where
  graph : Graph
  /-- Whether launches are checked against the nodes in flight. -/
  verify : Bool
  /-- For each node, its predecessors that have not completed. -/
  pending : Array Nat
  poisoned : Array Bool
  /-- Nodes that have not completed. -/
  remaining : Nat
  skipped : Nat := 0
  /-- The error of the earliest node that failed so far. -/
  firstError : Option (Nat × Error) := none
  /-- The nodes in flight, if launches are checked. -/
  running : List Nat := []
  deriving Inhabited

namespace Schedule

/-- The schedule before anything has run. -/
def start (graph : Graph) (verify : Bool) : Schedule where
  graph
  verify
  pending := graph.preds.map List.length
  poisoned := graph.preds.map fun _ => false
  remaining := graph.size

def isPoisoned (s : Schedule) (node : Nat) : Bool := s.poisoned[node]?.getD false

def skip (s : Schedule) : Schedule := { s with skipped := s.skipped + 1 }

def conflict? (s : Schedule) (node : Nat) : Option Nat :=
  if s.verify then s.running.find? fun r => s.graph.conflicts r node else none

def enter (s : Schedule) (node : Nat) : Schedule :=
  if s.verify then { s with running := s.running ++ [node] } else s

def leave (s : Schedule) (node : Nat) : Schedule :=
  if s.verify then { s with running := s.running.filter (· ≠ node) } else s

/-- Keeps the error of the earliest node. -/
def recordError (s : Schedule) (node : Nat) (e : Error) : Schedule :=
  match s.firstError with
  | some (first, _) => if node < first then { s with firstError := some (node, e) } else s
  | none => { s with firstError := some (node, e) }

/-- One predecessor of `node` has completed; gives whether that was the last. -/
def release (s : Schedule) (node : Nat) (poison : Bool) : Schedule × Bool :=
  let count := s.pending[node]?.getD 0
  ({ s with
      pending := s.pending.setIfInBounds node (count - 1)
      poisoned := if poison then s.poisoned.setIfInBounds node true else s.poisoned },
    count == 1)

/-- Releases nodes one after the other; gives those that have become ready. -/
def releaseAll (s : Schedule) (poison : Bool) : List Nat → Schedule × List Nat
  | [] => (s, [])
  | node :: nodes =>
    let (s, last) := s.release node poison
    let (s, ready) := s.releaseAll poison nodes
    (s, if last then node :: ready else ready)

/-- `node` has completed, by failing or being skipped if `failed`; gives the nodes that have become
ready. -/
def complete (s : Schedule) (node : Nat) (failed : Bool) : Schedule × List Nat :=
  let (s, ready) := s.releaseAll failed (s.graph.succsOf node)
  ({ s with remaining := s.remaining - 1 }, ready)

def isComplete (s : Schedule) : Bool := s.remaining == 0

/-- What the run ends with. -/
def outcome (s : Schedule) : Outcome :=
  match s.firstError with
  | some (_, e) => .error e
  | none => .ok ()

end Schedule

end OpFlow
