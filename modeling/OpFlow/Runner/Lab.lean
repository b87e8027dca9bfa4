import OpFlow.Random
import OpFlow.Text.Quoted

/-!
The lab: a runner that keeps submitted tasks in a queue and takes them out one at a time, in an order
that its seed determines. Each taking removes exactly one task, and the last task moves into its
place.
-/
namespace OpFlow

structure Lab (τ : Type) where
  seed : UInt64
  queue : Array τ := #[]
  random : Random
  /-- How many tasks have returned. -/
  executed : Nat := 0
  deriving Inhabited

namespace Lab

variable {τ : Type}

def ofSeed (seed : UInt64) : Lab τ := { seed, random := .ofSeed seed }

def pending (l : Lab τ) : Nat := l.queue.size

def submit (l : Lab τ) (t : τ) : Lab τ := { l with queue := l.queue.push t }

/-- The queue without its `i`th task, whose place the last one takes. -/
def swapRemove (queue : Array τ) (i : Nat) : Array τ :=
  match queue.back? with
  | some last => (queue.setIfInBounds i last).pop
  | none => queue

def take? (l : Lab τ) : Option (τ × Lab τ) :=
  let (i, random) := l.random.index l.queue.size
  match l.queue[i]? with
  | some t => some (t, { l with queue := swapRemove l.queue i, random })
  | none => none

def returned (l : Lab τ) : Lab τ := { l with executed := l.executed + 1 }

def describe (l : Lab τ) : String :=
  Text.record "LabTaskRunner"
    [("seed", toString l.seed.toNat), ("pending", toString l.pending)]

@[simp] theorem size_swapRemove (queue : Array τ) (i : Nat) :
    (swapRemove queue i).size = queue.size - 1 := by
  unfold swapRemove
  split
  · simp
  · simp_all

theorem take?_isSome_iff (l : Lab τ) : l.take?.isSome ↔ 0 < l.queue.size := by
  unfold take?
  constructor
  · intro h
    by_cases hs : 0 < l.queue.size
    · exact hs
    · have : l.queue.size = 0 := by omega
      simp_all [Random.index]
  · intro h
    have := l.random.index_lt h
    simp [this]

end Lab

/-- A task that starts by its name, submits other tasks, and may then panic. -/
inductive LabTask
  | mk (id : String) (children : List LabTask) (panics : Bool)
  deriving Inhabited

namespace LabTask

def id : LabTask → String
  | mk i _ _ => i

def children : LabTask → List LabTask
  | mk _ cs _ => cs

def panics : LabTask → Bool
  | mk _ _ p => p

mutual

def size : LabTask → Nat
  | mk _ cs _ => sizes cs + 1

def sizes : List LabTask → Nat
  | [] => 0
  | t :: ts => size t + sizes ts

end

end LabTask

inductive LabStep
  | idle
  | ran
  | panicked (text : String)
  deriving DecidableEq, Repr

namespace Lab

/-- Starts one queued task, which submits its children and returns or panics. A panic leaves all
other tasks in the queue. -/
def step (l : Lab LabTask) : Lab LabTask × LabStep × List String :=
  match l.take? with
  | none => (l, .idle, [])
  | some (t, l) =>
    let l := t.children.foldl submit l
    if t.panics then (l, .panicked "task panicked", [t.id]) else (l.returned, .ran, [t.id])

/-- Starts at most `limit` tasks, until none is queued or one panics. -/
def stepsUpTo : Nat → Lab LabTask → Lab LabTask × Except String Nat × List String
  | 0, l => (l, .ok 0, [])
  | limit + 1, l =>
    match l.step with
    | (l, .idle, _) => (l, .ok 0, [])
    | (l, .panicked text, ids) => (l, .error text, ids)
    | (l, .ran, ids) =>
      let (l, count, more) := stepsUpTo limit l
      (l, count.map (· + 1), ids ++ more)

/-- Runs until no task is queued, those submitted meanwhile included, and counts them. -/
def runUntilIdle (l : Lab LabTask) : Lab LabTask × Except String Nat × List String :=
  l.stepsUpTo (LabTask.sizes l.queue.toList + 1)

end Lab

end OpFlow
