import Mathlib.Logic.Function.Basic
import Mathlib.Logic.Relation
import OpFlow.Timer

/-!
Clockworks: timers together with the thread that fires them, and with all who set them. Their steps
come in any order, and the clock may move on between any two of them. So a timer may be set with a
deadline that the thread has already seen pass, and be cancelled while its batch is fired. A
callback that panics takes the thread with it.
-/
namespace OpFlow

namespace Timers

variable {τ : Type}

def add (t : Timers τ) (deadline : Nat) (callback : τ) : Timers τ :=
  { t with
    waiting := insert ⟨t.scheduled, deadline, callback⟩ t.waiting
    scheduled := t.scheduled + 1 }

theorem schedule_eq (t : Timers τ) (delay : Nat) (callback : τ) :
    t.schedule delay callback = (t.add (t.now + delay) callback, t.scheduled) := rfl

/-- What is left of the batch. -/
def leave (t : Timers τ) (rest : List (TimerEntry τ)) : Timers τ := { t with batch := rest }

end Timers

/-- Where the thread that fires the timers stands in its loop. -/
inductive Ringer (τ : Type)
  /-- It is about to read the clock. -/
  | awake
  /-- No timer was due; it waits to be woken, until the alarm if there is one. -/
  | asleep (alarm : Option Nat)
  /-- It is between two timers of its batch. -/
  | firing
  | running (e : TimerEntry τ)
  /-- A callback has panicked. -/
  | stopped

namespace Ringer

variable {τ : Type}

def next (t : Timers τ) : Ringer τ :=
  match t.batch with
  | [] => .asleep t.nextDeadline?
  | _ :: _ => .firing

def roused : Ringer τ → Ringer τ
  | .asleep _ => .awake
  | r => r

end Ringer

inductive Setter (m : Nat)
  | callback
  | client (c : Fin m)
  deriving DecidableEq

/-- How far a setter has come with a timer. -/
inductive Setting (τ : Type)
  | none
  /-- It has read the clock and knows the deadline. -/
  | timed (deadline : Nat) (callback : τ)
  /-- It has put the timer in, under this number, and has to wake the thread. -/
  | added (id : Nat)

/-- The start of a callback. -/
structure Firing (τ : Type) where
  entry : TimerEntry τ
  /-- What the clock showed. -/
  clock : Nat
  /-- How often the thread had read the clock; the timers of one batch have one round. -/
  round : Nat

/-- Timers, their thread and `m` threads outside, with a history of what was set and fired. -/
structure Clockwork (m : Nat) (τ : Type) where
  /-- The timers, as the thread sees them: their `now` is its last reading of the clock. -/
  timers : Timers τ := {}
  clock : Nat := 0
  ringer : Ringer τ := .awake
  settings : Setter m → Setting τ := fun _ => .none
  /-- All timers that were set, in the order of their numbers. -/
  entries : List (TimerEntry τ) := []
  /-- How many of them there were when the thread last read the clock. -/
  seen : Nat := 0
  rounds : Nat := 0
  firings : List (Firing τ) := []

namespace Clockwork

variable {m : Nat} {τ : Type}

def put (s : Clockwork m τ) (r : Ringer τ) : Clockwork m τ := { s with ringer := r }

def send (s : Clockwork m τ) (x : Setter m) (p : Setting τ) : Clockwork m τ :=
  { s with settings := Function.update s.settings x p }

def tick (s : Clockwork m τ) (clock : Nat) : Clockwork m τ := { s with clock }

/-- The thread reads the clock. -/
def look (s : Clockwork m τ) : Clockwork m τ :=
  { s with
    timers := s.timers.readClock s.clock
    ringer := .next (s.timers.readClock s.clock)
    seen := s.entries.length
    rounds := s.rounds + 1 }

def pass (s : Clockwork m τ) (rest : List (TimerEntry τ)) : Clockwork m τ :=
  { s with timers := s.timers.leave rest }

/-- The thread starts a callback. -/
def start (s : Clockwork m τ) (e : TimerEntry τ) (rest : List (TimerEntry τ)) : Clockwork m τ :=
  { s with
    timers := s.timers.leave rest
    ringer := .running e
    firings := s.firings ++ [⟨e, s.clock, s.rounds⟩] }

def panic (s : Clockwork m τ) : Clockwork m τ :=
  { s with timers := s.timers.leave [], ringer := .stopped }

def add (s : Clockwork m τ) (x : Setter m) (deadline : Nat) (callback : τ) : Clockwork m τ :=
  { s.send x (.added s.timers.scheduled) with
    timers := s.timers.add deadline callback
    entries := s.entries ++ [⟨s.timers.scheduled, deadline, callback⟩] }

def rouse (s : Clockwork m τ) (x : Setter m) : Clockwork m τ := (s.put s.ringer.roused).send x .none

def cancel (s : Clockwork m τ) (id : Nat) : Clockwork m τ :=
  { s with timers := s.timers.cancel id }

/-- A setter that sets nothing may begin to, and the callback only while it is run. -/
def MaySet (s : Clockwork m τ) (x : Setter m) : Prop :=
  s.settings x = .none ∧ (x = .callback → ∃ e, s.ringer = .running e)

/-- What the thread does. To look whether a timer was cancelled and to start its callback is one
step. -/
inductive Turns (s : Clockwork m τ) : Clockwork m τ → Prop
  | look (hs : s.ringer = .awake) : Turns s s.look
  /-- It may wake up at any time. -/
  | wake {alarm : Option Nat} (hs : s.ringer = .asleep alarm) : Turns s (s.put .awake)
  | pass {e : TimerEntry τ} {rest : List (TimerEntry τ)} (hs : s.ringer = .firing)
      (hbatch : s.timers.batch = e :: rest) (hcancelled : s.timers.isCancelled e.id = true) :
      Turns s (s.pass rest)
  | start {e : TimerEntry τ} {rest : List (TimerEntry τ)} (hs : s.ringer = .firing)
      (hbatch : s.timers.batch = e :: rest) (hcancelled : s.timers.isCancelled e.id = false) :
      Turns s (s.start e rest)
  | done (hs : s.ringer = .firing) (hbatch : s.timers.batch = []) : Turns s (s.put .awake)
  /-- The callback returns. -/
  | finish {e : TimerEntry τ} (hs : s.ringer = .running e) (hx : s.settings .callback = .none) :
      Turns s (s.put .firing)
  | panic {e : TimerEntry τ} (hs : s.ringer = .running e) (hx : s.settings .callback = .none) :
      Turns s s.panic

/-- What a setter does. A deadline that no clock can show makes it panic before it has changed
anything. -/
inductive Sets (x : Setter m) (s : Clockwork m τ) : Clockwork m τ → Prop
  | time (delay : Nat) (callback : τ) (hx : s.MaySet x) :
      Sets x s (s.send x (.timed (s.clock + delay) callback))
  | add {deadline : Nat} {callback : τ} (hx : s.settings x = .timed deadline callback) :
      Sets x s (s.add x deadline callback)
  | rouse {id : Nat} (hx : s.settings x = .added id) : Sets x s (s.rouse x)
  | cancel {id : Nat} (hx : s.MaySet x) (hid : id < s.timers.scheduled) : Sets x s (s.cancel id)

inductive Step (s s' : Clockwork m τ) : Prop
  | ticks (clock : Nat) (hle : s.clock ≤ clock) (h : s' = s.tick clock)
  | turns (h : Turns s s')
  | sets (x : Setter m) (h : Sets x s s')

/-- Some steps lead from one state to the other. -/
def Run : Clockwork m τ → Clockwork m τ → Prop := Relation.ReflTransGen Step

/-- Some steps lead here from a clockwork without timers. -/
def Reachable (s : Clockwork m τ) : Prop := Run {} s

variable {s s' s'' : Clockwork m τ}

theorem Reachable.new : Reachable ({} : Clockwork m τ) := Relation.ReflTransGen.refl

theorem Run.ticks (h : Run s s') {clock : Nat} (hle : s'.clock ≤ clock) : Run s (s'.tick clock) :=
  h.tail (.ticks clock hle rfl)

theorem Run.turns (h : Run s s') (ht : Turns s' s'') : Run s s'' := h.tail (.turns ht)

theorem Run.sets (h : Run s s') {x : Setter m} (hx : Sets x s' s'') : Run s s'' :=
  h.tail (.sets x hx)

theorem Reachable.run (h : Reachable s) (hs : Run s s') : Reachable s' := h.trans hs

theorem Reachable.ticks (h : Reachable s) {clock : Nat} (hle : s.clock ≤ clock) :
    Reachable (s.tick clock) := Run.ticks h hle

theorem Reachable.turns (h : Reachable s) (ht : Turns s s') : Reachable s' := Run.turns h ht

theorem Reachable.sets (h : Reachable s) {x : Setter m} (hx : Sets x s s') : Reachable s' :=
  Run.sets h hx

@[simp] theorem send_ringer (s : Clockwork m τ) (x : Setter m) (p : Setting τ) :
    (s.send x p).ringer = s.ringer := rfl

@[simp] theorem send_settings_self (s : Clockwork m τ) (x : Setter m) (p : Setting τ) :
    (s.send x p).settings x = p := Function.update_self ..

theorem send_settings_of_ne (s : Clockwork m τ) {x y : Setter m} (p : Setting τ) (h : y ≠ x) :
    (s.send x p).settings y = s.settings y := Function.update_of_ne h ..

end Clockwork

end OpFlow
