import OpFlow.Error

/-!
Worker pools: a fixed number of threads that take tasks from one queue, oldest first. A closed pool
accepts no more tasks but still runs those it has; a task that panics counts as completed and leaves
its worker in place.
-/
namespace OpFlow

structure WorkerPool (τ : Type) where
  threads : Nat := 1
  /-- Tasks accepted but not started, oldest first. -/
  queue : List τ := []
  /-- Tasks being run. -/
  busy : Nat := 0
  /-- Tasks that have ended. -/
  completed : Nat := 0
  closed : Bool := false
  deriving Inhabited

namespace WorkerPool

variable {τ : Type}

def ofThreads (n : Nat) : WorkerPool τ := { threads := max n 1 }

def submit? (p : WorkerPool τ) (t : τ) : Option (WorkerPool τ) :=
  if p.closed then none else some { p with queue := p.queue ++ [t] }

def take? (p : WorkerPool τ) : Option (τ × WorkerPool τ) :=
  match p.queue with
  | [] => none
  | t :: queue => some (t, { p with queue, busy := p.busy + 1 })

def returned (p : WorkerPool τ) : WorkerPool τ :=
  { p with busy := p.busy - 1, completed := p.completed + 1 }

def close (p : WorkerPool τ) : WorkerPool τ := { p with closed := true }

def describe (p : WorkerPool τ) : String :=
  Text.record "WorkerPool"
    [("threads", toString p.threads), ("pending", toString p.queue.length),
      ("busy", toString p.busy), ("shutdown", Text.boolean p.closed)]

def closedMessage : String := "worker pool is shut down"

def closedError : Error :=
  (Error.of .unavailable closedMessage).withForeignCause closedMessage

end WorkerPool

/-- A task for a dialogue with a pool. Each keeps a promise when it is done; one that panics, or is
never run, leaves its promise unkept. -/
inductive PoolTask
  /-- Adds to a running total. -/
  | add (n : Int)
  | panic
  /-- Submits a chain that is shorter by one, down to a task that does nothing. -/
  | chain (length : Nat)
  deriving DecidableEq, Repr, Inhabited

structure PoolSession where
  pool : WorkerPool PoolTask
  total : Int := 0

namespace PoolSession

def ofThreads (n : Nat) : PoolSession := { pool := .ofThreads n }

/-- Runs tasks until none is queued, at most `limit` of them. Gives how each promise was left: the
task of a chain passes its promise on with the rest of the chain. -/
def runUpTo : Nat → PoolSession → PoolSession × List Outcome
  | 0, s => (s, [])
  | limit + 1, s =>
    match s.pool.take? with
    | none => (s, [])
    | some (t, pool) =>
      let (s, ending) : PoolSession × List Outcome := match t with
        | .add n => ({ pool, total := s.total + n : PoolSession }, [.ok ()])
        | .panic => ({ s with pool }, [.error .promiseDropped])
        | .chain 0 => ({ s with pool }, [.ok ()])
        | .chain (n + 1) =>
          match pool.submit? (.chain n) with
          | some pool => ({ s with pool }, [])
          | none => ({ s with pool }, [.error .promiseDropped])
      let (s, endings) := runUpTo limit { s with pool := s.pool.returned }
      (s, ending ++ endings)

/-- The tasks that a task brings with it, itself included. -/
def weight : PoolTask → Nat
  | .chain n => n + 1
  | _ => 1

/-- Submits tasks and lets the pool run them; gives how their promises were left. -/
def run (s : PoolSession) (ts : List PoolTask) : PoolSession × List Outcome :=
  let (pool, refused) := ts.foldl (fun (pool, refused) t =>
    match pool.submit? t with
    | some pool => (pool, refused)
    | none => (pool, refused ++ [(.error .promiseDropped : Outcome)])) (s.pool, [])
  let (s, endings) := runUpTo (ts.foldl (fun n t => n + weight t) 0) { s with pool }
  (s, refused ++ endings)

/-- What several promises come to together. -/
def joined (os : List Outcome) : Outcome :=
  match os.find? fun o => match o with
    | .error _ => true
    | .ok () => false with
  | some o => o
  | none => .ok ()

end PoolSession

end OpFlow
