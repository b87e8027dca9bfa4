import OpFlow.Graph

/-!
The reduction of a graph leaves out every edge between two nodes that a longer path orders already.
The nodes are taken in order. From each a search stamps the nodes that lie behind its direct
successors, and the edges to stamped nodes are cut. A path to a node passes no node beyond it, so the
search stops at the furthest direct successor.
-/
namespace OpFlow.Graph

/-- The nodes right behind `node` up to the horizon, last first. -/
def ahead (succs : Array (List Nat)) (horizon node : Nat) : List Nat :=
  ((succs[node]?.getD []).filter (· ≤ horizon)).reverse

/-- Whether a search from `source` passes over a node: it has stamped it before, or there is no such
node. -/
def isStamped (stamps : Array (Option Nat)) (source node : Nat) : Bool :=
  stamps[node]?.getD (some source) == some source

/-- A bound on the steps of a search. -/
def searchBound (succs : Array (List Nat)) (source : Nat) (stamps : Array (Option Nat))
    (stack : List Nat) : Nat :=
  stamps.toList.countP (· != some source) * (succs.toList.flatten.length + 1) + stack.length

theorem length_ahead_le (succs : Array (List Nat)) (horizon node : Nat) :
    (ahead succs horizon node).length ≤ succs.toList.flatten.length := by
  rw [ahead, List.length_reverse]
  refine Nat.le_trans (List.length_filter_le _ _) ?_
  cases h : succs[node]? with
  | none => simp
  | some out =>
    exact (List.sublist_flatten_of_mem (Array.mem_toList_iff.2 (Array.mem_of_getElem? h))).length_le

/-- Stamping a node brings the search nearer to its end. -/
theorem searchBound_stamp {succs : Array (List Nat)} {source node : Nat} {stamps : Array (Option Nat)}
    (h : isStamped stamps source node = false) (horizon : Nat) (stack : List Nat) :
    searchBound succs source (stamps.setIfInBounds node (some source))
      (ahead succs horizon node ++ stack) < searchBound succs source stamps (node :: stack) := by
  obtain ⟨hlt, hne⟩ : ∃ hlt : node < stamps.toList.length, stamps.toList[node] ≠ some source := by
    unfold isStamped at h
    by_cases hlt : node < stamps.size
    · exact ⟨hlt, by simpa [hlt] using h⟩
    · simp [hlt] at h
  have hpos : 0 < stamps.toList.countP (· != some source) :=
    List.countP_pos_iff.2 ⟨_, List.getElem_mem hlt, by simpa using hne⟩
  have hcount : (stamps.setIfInBounds node (some source)).toList.countP (· != some source) + 1 =
      stamps.toList.countP (· != some source) := by
    rw [Array.toList_setIfInBounds, List.countP_set hlt, if_pos (by simpa using hne), if_neg (by simp)]
    omega
  have hahead := length_ahead_le succs horizon node
  simp only [searchBound, ← hcount, Nat.add_mul, List.length_append, List.length_cons]
  omega

/-- Stamps every node that the stack leads to within the horizon. -/
def search (succs : Array (List Nat)) (source horizon : Nat) (stamps : Array (Option Nat))
    (stack : List Nat) : Array (Option Nat) :=
  match stack with
  | [] => stamps
  | node :: stack =>
    if _h : isStamped stamps source node then search succs source horizon stamps stack
    else search succs source horizon (stamps.setIfInBounds node (some source))
      (ahead succs horizon node ++ stack)
termination_by searchBound succs source stamps stack
decreasing_by
  · simp [searchBound]
  · exact searchBound_stamp (by simpa using _h) horizon stack

@[simp] theorem size_search {succs : Array (List Nat)} {source horizon : Nat}
    {stamps : Array (Option Nat)} {stack : List Nat} :
    (search succs source horizon stamps stack).size = stamps.size := by
  fun_induction search succs source horizon stamps stack with
  | case1 => rfl
  | case2 stamps node stack _ ih => exact ih
  | case3 stamps node stack _ ih => rw [ih, Array.size_setIfInBounds]

def cut (g : Graph) (node : Nat) (kept dropped : List Nat) : Graph :=
  { g with
    preds := dropped.foldl (fun preds d => preds.modify d (·.filter (· ≠ node))) g.preds
    succs := g.succs.setIfInBounds node kept }

/-- What a reduction has come to: what is left of the graph, who stamped each node last, and how
many edges were cut. -/
structure Reducing where
  graph : Graph
  stamps : Array (Option Nat)
  removed : Nat := 0

/-- Cuts the edges out of `source` that longer paths imply. -/
def Reducing.step (r : Reducing) (source : Nat) : Reducing :=
  let out := r.graph.succsOf source
  if out.length < 2 then r
  else
    let horizon := out.max?.getD source
    let stack := out.foldl (fun stack child => ahead r.graph.succs horizon child ++ stack) []
    let stamps := search r.graph.succs source horizon r.stamps stack
    let (kept, dropped) := out.partition fun d => stamps[d]? ≠ some (some source)
    ⟨r.graph.cut source kept dropped, stamps, r.removed + dropped.length⟩

def reduce (g : Graph) : Graph × Nat :=
  let r := (List.range g.size).foldl Reducing.step ⟨g, Array.replicate g.size none, 0⟩
  (r.graph, r.removed)

def build (reduction : Bool) (fs : List Footprint) : Graph :=
  if reduction then (full fs).reduce.1 else full fs

end OpFlow.Graph
