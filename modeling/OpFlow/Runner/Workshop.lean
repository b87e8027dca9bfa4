import OpFlow.Runner.Pool
import Mathlib.Data.Fintype.Sum
import Mathlib.Data.List.FinRange
import Mathlib.Logic.Function.Basic
import Mathlib.Logic.Relation
import Mathlib.Tactic.DeriveFintype

/-!
Workshops: a pool with its workers and its callers, threads from outside or tasks that run. Their
small steps come in any order, so the pool may be closed between the check of a submission and its
push. A worker holds a lock from its look at the empty queue to its look at the flag; meanwhile no
submission ends and no sleeper wakes.
-/
namespace OpFlow

namespace WorkerPool

variable {τ : Type}

/-- One more task at the end of the queue, whether or not the pool is closed. -/
def push (p : WorkerPool τ) (t : τ) : WorkerPool τ := { p with queue := p.queue ++ [t] }

theorem submit?_eq (p : WorkerPool τ) (t : τ) :
    p.submit? t = if p.closed then none else some (p.push t) := rfl

theorem take?_eq_none_iff {p : WorkerPool τ} : p.take? = none ↔ p.queue = [] := by
  unfold take?
  split <;> simp_all

theorem take?_eq_some_iff {p p' : WorkerPool τ} {t : τ} :
    p.take? = some (t, p') ↔
      ∃ rest, p.queue = t :: rest ∧ p' = { p with queue := rest, busy := p.busy + 1 } := by
  unfold take?
  split
  · simp_all
  · next u rest hqueue =>
    simp only [hqueue, Option.some.injEq, Prod.mk.injEq, List.cons.injEq]
    exact ⟨fun ⟨ht, hp⟩ => ⟨rest, ⟨ht, rfl⟩, hp.symm⟩,
      fun ⟨_, ⟨ht, hrest⟩, hp⟩ => ⟨ht, hrest ▸ hp.symm⟩⟩

end WorkerPool

/-- Where a worker stands in its loop. -/
inductive Worker (τ : Type)
  /-- It is about to take a task. -/
  | ready
  /-- It has taken a task, which is still counted as pending. -/
  | taken (t : τ)
  | running (t : τ)
  /-- It has found no task and wants the lock. -/
  | seeking
  /-- It holds the lock and has seen that the queue is empty. -/
  | guarding
  /-- It waits to be woken. -/
  | asleep
  | gone
  deriving DecidableEq

/-- Who calls the pool: the task that a worker runs, or a thread from outside. -/
inductive Caller (n m : Nat)
  | worker (w : Fin n)
  | client (c : Fin m)
  deriving DecidableEq, Fintype

/-- What a caller is about. -/
inductive Errand (n : Nat) (τ : Type)
  | none
  /-- It has found the pool open, to submit this task. -/
  | checked (t : τ)
  /-- It has counted its task as pending. -/
  | counted (t : τ)
  /-- It has pushed its task, before which there were so many, and has to notify a worker. -/
  | pushed (ticket : Nat)
  /-- It has closed the pool and has to notify the workers, and may then wait for them. -/
  | closing (waits : Bool)
  /-- It is about to take the handles of the workers. -/
  | collecting
  /-- It goes through the handles it has taken, and knows whether it has waited in vain. -/
  | joining (done left : List (Fin n)) (clean : Bool)
  deriving DecidableEq

def Errand.submits {n : Nat} {τ : Type} : Errand n τ → Bool
  | checked _ | counted _ | pushed _ => true
  | none | closing _ | collecting | joining .. => false

/-- A pool of `n` workers with `m` threads outside, and a history of its tasks. -/
structure Workshop (n m : Nat) (τ : Type) where
  pool : WorkerPool τ := .ofThreads n
  /-- The counter of tasks that were not started. -/
  pending : Nat := 0
  workers : Fin n → Worker τ := fun _ => .ready
  errands : Caller n m → Errand n τ := fun _ => .none
  /-- The handles of the workers that nobody has taken. -/
  handles : List (Fin n) := List.finRange n
  /-- How many calls have taken the handles that were there. -/
  collections : Nat := 0
  /-- All tasks that were pushed, in that order, with those who pushed them. -/
  pushed : List (Caller n m × τ) := []
  /-- The pushed tasks of the submissions that have returned, by number. -/
  accepted : List Nat := []
  /-- All tasks that workers have taken, in that order. -/
  started : List τ := []

namespace Workshop

variable {n m : Nat} {τ : Type}

def put (s : Workshop n m τ) (w : Fin n) (p : Worker τ) : Workshop n m τ :=
  { s with workers := Function.update s.workers w p }

def send (s : Workshop n m τ) (x : Caller n m) (e : Errand n τ) : Workshop n m τ :=
  { s with errands := Function.update s.errands x e }

def take (s : Workshop n m τ) (w : Fin n) (t : τ) (pool : WorkerPool τ) : Workshop n m τ :=
  { s with pool, started := s.started ++ [t] }.put w (.taken t)

/-- The task that a worker has taken is no longer counted as pending. -/
def run (s : Workshop n m τ) (w : Fin n) (t : τ) : Workshop n m τ :=
  { s with pending := s.pending - 1 }.put w (.running t)

def finish (s : Workshop n m τ) (w : Fin n) : Workshop n m τ :=
  { s with pool := s.pool.returned }.put w .ready

def count (s : Workshop n m τ) (x : Caller n m) (t : τ) : Workshop n m τ :=
  { s with pending := s.pending + 1 }.send x (.counted t)

def push (s : Workshop n m τ) (x : Caller n m) (t : τ) : Workshop n m τ :=
  { s with pool := s.pool.push t, pushed := s.pushed ++ [(x, t)] }.send x (.pushed s.pushed.length)

def accept (s : Workshop n m τ) (x : Caller n m) (ticket : Nat) : Workshop n m τ :=
  { s with accepted := s.accepted ++ [ticket] }.send x .none

def close (s : Workshop n m τ) (x : Caller n m) (waits : Bool) : Workshop n m τ :=
  { s with pool := s.pool.close }.send x (.closing waits)

def collect (s : Workshop n m τ) (x : Caller n m) : Workshop n m τ :=
  { s with handles := [], collections := s.collections + 1 }.send x (.joining [] s.handles true)

def IsFree (s : Workshop n m τ) : Prop := ∀ w, s.workers w ≠ .guarding

instance [DecidableEq τ] (s : Workshop n m τ) : Decidable s.IsFree :=
  inferInstanceAs (Decidable (∀ w, s.workers w ≠ .guarding))

/-- A thread that is about nothing may call the pool, and a worker only from the task it runs. -/
def MayCall (s : Workshop n m τ) (x : Caller n m) : Prop :=
  s.errands x = .none ∧ ∀ w, x = .worker w → ∃ t, s.workers w = .running t

/-- What a worker does by itself. -/
inductive Works (w : Fin n) (s : Workshop n m τ) : Workshop n m τ → Prop
  | take {t : τ} {pool : WorkerPool τ} (hw : s.workers w = .ready)
      (ht : s.pool.take? = some (t, pool)) : Works w s (s.take w t pool)
  | miss (hw : s.workers w = .ready) (ht : s.pool.take? = none) : Works w s (s.put w .seeking)
  | run {t : τ} (hw : s.workers w = .taken t) : Works w s (s.run w t)
  /-- Its task has returned or panicked, after whatever it called. -/
  | finish {t : τ} (panics : Bool) (hw : s.workers w = .running t)
      (hx : s.errands (.worker w) = .none) : Works w s (s.finish w)
  /-- It takes the lock, sees a task, and gives the lock back. -/
  | retry (hw : s.workers w = .seeking) (hfree : s.IsFree) (hqueue : s.pool.queue ≠ []) :
      Works w s (s.put w .ready)
  | guard (hw : s.workers w = .seeking) (hfree : s.IsFree) (hqueue : s.pool.queue = []) :
      Works w s (s.put w .guarding)
  | leave (hw : s.workers w = .guarding) (hclosed : s.pool.closed = true) :
      Works w s (s.put w .gone)
  | sleep (hw : s.workers w = .guarding) (hopen : s.pool.closed = false) :
      Works w s (s.put w .asleep)
  /-- It may be woken at any time, and then has the lock for a moment. -/
  | wake (hw : s.workers w = .asleep) (hfree : s.IsFree) : Works w s (s.put w .ready)

/-- What a caller does with the pool. A submission to a closed pool is refused, which changes
nothing. -/
inductive Calls (x : Caller n m) (s : Workshop n m τ) : Workshop n m τ → Prop
  | check (t : τ) (hx : s.MayCall x) (hopen : s.pool.closed = false) :
      Calls x s (s.send x (.checked t))
  | count {t : τ} (hx : s.errands x = .checked t) : Calls x s (s.count x t)
  | push {t : τ} (hx : s.errands x = .counted t) : Calls x s (s.push x t)
  /-- It notifies a worker, and the submission returns. -/
  | accept {ticket : Nat} (hx : s.errands x = .pushed ticket) (hfree : s.IsFree) :
      Calls x s (s.accept x ticket)
  | close (waits : Bool) (hx : s.MayCall x) : Calls x s (s.close x waits)
  /-- It notifies the workers, and does not wait for them. -/
  | closed (hx : s.errands x = .closing false) (hfree : s.IsFree) : Calls x s (s.send x .none)
  | rouse (hx : s.errands x = .closing true) (hfree : s.IsFree) : Calls x s (s.send x .collecting)
  /-- No clock shows the time until which it should wait, and the call panics. -/
  | overflow (hx : s.errands x = .collecting) : Calls x s (s.send x .none)
  | collect (hx : s.errands x = .collecting) : Calls x s (s.collect x)
  /-- Nobody waits for itself. -/
  | pass {done left : List (Fin n)} {w : Fin n} {clean : Bool}
      (hx : s.errands x = .joining done (w :: left) clean) (hself : x = .worker w) :
      Calls x s (s.send x (.joining (done ++ [w]) left clean))
  | join {done left : List (Fin n)} {w : Fin n} {clean : Bool}
      (hx : s.errands x = .joining done (w :: left) clean) (hother : x ≠ .worker w)
      (hgone : s.workers w = .gone) :
      Calls x s (s.send x (.joining (done ++ [w]) left clean))
  /-- Its time is over, and the worker is still there. -/
  | giveUp {done left : List (Fin n)} {w : Fin n} {clean : Bool}
      (hx : s.errands x = .joining done (w :: left) clean) (hother : x ≠ .worker w)
      (hthere : s.workers w ≠ .gone) :
      Calls x s (s.send x (.joining (done ++ [w]) left false))
  /-- It returns whether all that it waited for have gone. -/
  | report {done : List (Fin n)} {clean : Bool} (hx : s.errands x = .joining done [] clean) :
      Calls x s (s.send x .none)

inductive Step (s s' : Workshop n m τ) : Prop
  | works (w : Fin n) (h : Works w s s')
  | calls (x : Caller n m) (h : Calls x s s')

/-- Some steps lead from one state to the other. -/
def Run : Workshop n m τ → Workshop n m τ → Prop := Relation.ReflTransGen Step

/-- Some steps lead here from a new pool. -/
def Reachable (s : Workshop n m τ) : Prop := Run {} s

variable {s s' s'' : Workshop n m τ}

theorem Reachable.new : Reachable ({} : Workshop n m τ) := Relation.ReflTransGen.refl

theorem Run.works (h : Run s s') {w : Fin n} (hw : Works w s' s'') : Run s s'' :=
  h.tail (.works w hw)

theorem Run.calls (h : Run s s') {x : Caller n m} (hx : Calls x s' s'') : Run s s'' :=
  h.tail (.calls x hx)

theorem Reachable.run (h : Reachable s) (hs : Run s s') : Reachable s' := h.trans hs

theorem Reachable.works (h : Reachable s) {w : Fin n} (hw : Works w s s') : Reachable s' :=
  Run.works h hw

theorem Reachable.calls (h : Reachable s) {x : Caller n m} (hx : Calls x s s') : Reachable s' :=
  Run.calls h hx

section Fields

variable (s : Workshop n m τ) (w : Fin n) (p : Worker τ) (x : Caller n m) (e : Errand n τ)

@[simp] theorem put_pool : (s.put w p).pool = s.pool := rfl
@[simp] theorem put_pending : (s.put w p).pending = s.pending := rfl
@[simp] theorem put_errands : (s.put w p).errands = s.errands := rfl
@[simp] theorem put_workers_self : (s.put w p).workers w = p := Function.update_self ..
theorem put_workers_of_ne {v : Fin n} (h : v ≠ w) : (s.put w p).workers v = s.workers v :=
  Function.update_of_ne h ..

@[simp] theorem send_pool : (s.send x e).pool = s.pool := rfl
@[simp] theorem send_pending : (s.send x e).pending = s.pending := rfl
@[simp] theorem send_workers : (s.send x e).workers = s.workers := rfl
@[simp] theorem send_pushed : (s.send x e).pushed = s.pushed := rfl
@[simp] theorem send_accepted : (s.send x e).accepted = s.accepted := rfl
@[simp] theorem send_errands_self : (s.send x e).errands x = e := Function.update_self ..
theorem send_errands_of_ne {y : Caller n m} (h : y ≠ x) : (s.send x e).errands y = s.errands y :=
  Function.update_of_ne h ..

@[simp] theorem take_workers (t : τ) (pool : WorkerPool τ) :
    (s.take w t pool).workers = (s.put w (.taken t)).workers := rfl
@[simp] theorem run_workers (t : τ) : (s.run w t).workers = (s.put w (.running t)).workers := rfl
@[simp] theorem finish_workers : (s.finish w).workers = (s.put w .ready).workers := rfl
@[simp] theorem count_errands (t : τ) :
    (s.count x t).errands = (s.send x (.counted t)).errands := rfl
@[simp] theorem push_errands (t : τ) :
    (s.push x t).errands = (s.send x (.pushed s.pushed.length)).errands := rfl
@[simp] theorem accept_errands (ticket : Nat) :
    (s.accept x ticket).errands = (s.send x .none).errands := rfl
@[simp] theorem close_errands (waits : Bool) :
    (s.close x waits).errands = (s.send x (.closing waits)).errands := rfl
@[simp] theorem collect_errands :
    (s.collect x).errands = (s.send x (.joining [] s.handles true)).errands := rfl

end Fields

/-- A submission that nothing comes between does to the pool what `submit?` says. -/
theorem exists_run_submit {x : Caller n m} {t : τ} {p : WorkerPool τ} (hx : s.MayCall x)
    (hfree : s.IsFree) (hp : s.pool.submit? t = some p) :
    ∃ s', Run s s' ∧ s'.pool = p ∧ s'.pending = s.pending + 1 ∧
      s'.accepted = s.accepted ++ [s.pushed.length] := by
  rw [WorkerPool.submit?_eq] at hp
  split at hp
  · cases hp
  · next hopen =>
    obtain rfl := Option.some.inj hp
    have hchecked := Calls.check t hx (Bool.eq_false_iff.2 hopen)
    have hcounted := Calls.count (send_errands_self s x (.checked t))
    have hpushed : Calls x _ (((s.send x (.checked t)).count x t).push x t) :=
      .push (send_errands_self ..)
    have haccepted : Calls x _
        ((((s.send x (.checked t)).count x t).push x t).accept x s.pushed.length) :=
      .accept (send_errands_self ..) hfree
    exact ⟨_, (((Run.calls .refl hchecked).calls hcounted).calls hpushed).calls haccepted, rfl, rfl,
      rfl⟩

end Workshop

end OpFlow
