import OpFlow.Feed
import OpFlow.Proofs.Async.Cells
import Mathlib.Logic.Relation

/-!
Threads that use one feed. An enqueue that finds someone waiting takes them out of the feed and only
then hands them the buffer, which runs their continuations: these may use the feed again before the
enqueue is over, while other threads use it as well. Whatever turns they take, buffers and requests are
matched by their numbers.
-/
namespace OpFlow.Feed

section
variable {μ : Type} {f : Feed μ}

theorem enqueue_of_nil (hf : f.waiters = []) (b : Bytes) :
    f.enqueue b = (⟨f.buffers ++ [b], []⟩, none) := by
  rw [enqueue, hf]

theorem enqueue_of_cons {w : μ} {ws : List μ} (hf : f.waiters = w :: ws) (b : Bytes) :
    f.enqueue b = (⟨f.buffers, ws⟩, some w) := by
  rw [enqueue, hf]

theorem dequeue_of_nil (hf : f.buffers = []) (w : μ) :
    f.dequeue w = (⟨[], f.waiters ++ [w]⟩, none) := by
  rw [dequeue, hf]

theorem dequeue_of_cons {b : Bytes} {bs : List Bytes} (hf : f.buffers = b :: bs) (w : μ) :
    f.dequeue w = (⟨bs, f.waiters⟩, some b) := by
  rw [dequeue, hf]

end

/-- What code does with a feed. -/
inductive Call (κ : Type)
  | enqueue (buffer : Bytes)
  /-- Asks for a buffer, and then has these continuations wait for it. -/
  | dequeue (waiting : List κ)
  /-- One more continuation waits for what a request gets. -/
  | await (request : Nat) (continuation : κ)

/-- What a thread is to do next. -/
inductive Piece (κ : Type)
  | call (call : Call κ)
  /-- An enqueue has taken out a waiter, who is to be handed the buffer. -/
  | hand (request : Nat) (buffer : Bytes)
  /-- A continuation is to run. -/
  | resume (continuation : κ)

def Piece.due? {κ : Type} : Piece κ → Option (Bytes × Nat)
  | hand k b => some (b, k)
  | call _ | resume _ => none

/-- What has happened: the critical sections, and the buffers that have got to their requests. -/
inductive Event
  | enqueued (buffer : Bytes)
  | requested
  | received (request : Nat) (buffer : Bytes)
  deriving DecidableEq

namespace Event

def enqueued? : Event → Option Bytes
  | enqueued b => some b
  | requested | received _ _ => none

def received? : Event → Option (Bytes × Nat)
  | received k b => some (b, k)
  | enqueued _ | requested => none

end Event

structure Traffic (κ : Type) where
  feed : Feed Nat := {}
  cells : Cells Bytes κ := #[]
  threads : List (List (Piece κ)) := []
  log : List Event := []

/-- What a thread does with a piece. -/
structure Deal (κ : Type) where
  feed : Feed Nat
  cells : Cells Bytes κ
  /-- What the thread is to do before anything else. -/
  begun : List (Piece κ) := []
  notes : List Event := []

namespace Traffic

variable {κ : Type}

/-- Does a piece. A continuation that runs makes the given calls. -/
def deal (s : Traffic κ) (calls : List (Call κ)) : Piece κ → Deal κ
  | .call (.enqueue b) =>
    let (feed, waiter) := s.feed.enqueue b
    { feed, cells := s.cells, begun := waiter.toList.map (.hand · b), notes := [.enqueued b] }
  | .call (.dequeue waiting) =>
    let (feed, buffer) := s.feed.dequeue s.cells.size
    { feed
      cells := s.cells.add (buffer.map .ok)
      begun := waiting.map (.call <| .await s.cells.size ·)
      notes := .requested :: buffer.toList.map (.received s.cells.size) }
  | .call (.await k w) =>
    if s.cells.isSettled k then { feed := s.feed, cells := s.cells, begun := [.resume w] }
    else { feed := s.feed, cells := s.cells.register k w }
  | .hand k b =>
    let (cells, woken) := s.cells.settle k (.ok b)
    { feed := s.feed, cells, begun := woken.map .resume, notes := [.received k b] }
  | .resume _ => { feed := s.feed, cells := s.cells, begun := calls.map .call }

def agenda (s : Traffic κ) (i : Nat) : List (Piece κ) := s.threads[i]?.getD []

/-- A thread does its next piece, if it has one. -/
def act? (s : Traffic κ) (i : Nat) (calls : List (Call κ)) : Option (Traffic κ) :=
  match s.agenda i with
  | [] => none
  | p :: rest =>
    let d := s.deal calls p
    some
      { feed := d.feed
        cells := d.cells
        threads := s.threads.set i (d.begun ++ rest)
        log := s.log ++ d.notes }

def enter (s : Traffic κ) (calls : List (Call κ)) : Traffic κ :=
  { s with threads := s.threads ++ [calls.map .call] }

inductive Step (s : Traffic κ) : Traffic κ → Prop
  | act {i : Nat} {calls : List (Call κ)} {s' : Traffic κ} (h : s.act? i calls = some s') : Step s s'
  | enter (calls : List (Call κ)) : Step s (s.enter calls)

/-- What may come of a feed that nobody has used yet, however threads take turns. -/
def Reachable (s : Traffic κ) : Prop := Relation.ReflTransGen Step {} s

variable (s : Traffic κ)

def enqueued : List Bytes := s.log.filterMap Event.enqueued?

def requested : Nat := s.log.count .requested

def received : List (Bytes × Nat) := s.log.filterMap Event.received?

def due : List (Bytes × Nat) := s.threads.flatten.filterMap Piece.due?

/-- Nobody has anything left to do. -/
def Idle : Prop := ∀ i, s.agenda i = []

variable {s} {s' : Traffic κ} {i : Nat} {calls : List (Call κ)} {p : Piece κ}

/-- What comes of a thread's turn. -/
structure Acted (s : Traffic κ) (i : Nat) (calls : List (Call κ)) (p : Piece κ)
    (others : List (Bytes × Nat)) (s' : Traffic κ) : Prop where
  feed : s'.feed = (s.deal calls p).feed
  cells : s'.cells = (s.deal calls p).cells
  log : s'.log = s.log ++ (s.deal calls p).notes
  due : s.due.Perm (p.due?.toList ++ others)
  due' : s'.due.Perm ((s.deal calls p).begun.filterMap Piece.due? ++ others)
  agenda : ∃ rest, s.agenda i = p :: rest ∧ s'.agenda i = (s.deal calls p).begun ++ rest
  elsewhere : ∀ k, k ≠ i → s'.agenda k = s.agenda k

theorem acted (h : s.act? i calls = some s') : ∃ p others, s.Acted i calls p others s' := by
  unfold act? at h
  split at h
  · cases h
  · next p rest hagenda =>
    obtain rfl := Option.some.inj h
    have hi : s.threads[i]? = some (p :: rest) := by
      unfold agenda at hagenda
      cases hi : s.threads[i]? with
      | none => simp [hi] at hagenda
      | some l => simpa [hi] using hagenda
    obtain ⟨others, hold, hnew⟩ := exists_flatMap_perm (List.filterMap Piece.due?) hi
    refine ⟨p, rest.filterMap Piece.due? ++ others, rfl, rfl, rfl, ?_, ?_, ⟨rest, hagenda, ?_⟩,
      fun k hk => ?_⟩
    · rw [due, List.filterMap_flatten, ← List.flatMap_def]
      refine hold.trans (.of_eq ?_)
      cases hp : p.due? <;> simp [hp]
    · rw [due, List.filterMap_flatten, ← List.flatMap_def]
      refine (hnew _).trans (.of_eq ?_)
      rw [List.filterMap_append, List.append_assoc]
    · simp [agenda, (List.getElem?_eq_some_iff.1 hi).1]
    · simp [agenda, Ne.symm hk]

namespace Acted

variable {others : List (Bytes × Nat)} (h : s.Acted i calls p others s')
include h

theorem enqueued : s'.enqueued =
    s.enqueued ++ (s.deal calls p).notes.filterMap Event.enqueued? := by
  rw [Traffic.enqueued, h.log, List.filterMap_append, Traffic.enqueued]

theorem requested : s'.requested = s.requested + (s.deal calls p).notes.count .requested := by
  rw [Traffic.requested, h.log, List.count_append, Traffic.requested]

theorem received : s'.received =
    s.received ++ (s.deal calls p).notes.filterMap Event.received? := by
  rw [Traffic.received, h.log, List.filterMap_append, Traffic.received]

end Acted

theorem agenda_enter (s : Traffic κ) (calls : List (Call κ)) (i : Nat) : (s.enter calls).agenda i =
    if i = s.threads.length then calls.map .call else s.agenda i :=
  getD_concat ..

theorem due?_of_mem_map_call (calls : List (Call κ)) : ∀ p ∈ calls.map Piece.call, p.due? = none :=
  fun p hp => by
    obtain ⟨c, -, rfl⟩ := List.mem_map.1 hp
    rfl

theorem due?_of_mem_map_await (k : Nat) (ws : List κ) :
    ∀ p ∈ ws.map fun w => Piece.call (.await k w), p.due? = none := by
  simpa [List.map_map] using due?_of_mem_map_call (ws.map (.await k))

/-- What comes of the given turns; who has nothing to do lets its turn pass. A turn says what a
continuation that runs in it does. -/
def after (s : Traffic κ) (turns : List (Nat × List (Call κ))) : Traffic κ :=
  turns.foldl (fun s turn => (s.act? turn.1 turn.2).getD s) s

theorem Reachable.after (hs : s.Reachable) (turns : List (Nat × List (Call κ))) :
    (s.after turns).Reachable := by
  induction turns generalizing s with
  | nil => exact hs
  | cons turn turns ih =>
    have hturn : ((s.act? turn.1 turn.2).getD s).Reachable := by
      cases h : s.act? turn.1 turn.2 with
      | none => exact hs
      | some s' => exact .tail hs (.act h)
    exact ih hturn

end Traffic

end OpFlow.Feed
