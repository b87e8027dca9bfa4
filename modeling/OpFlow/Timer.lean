import OpFlow.Text.Quoted

/-!
Timers: callbacks that are due at a deadline, kept in the order of their deadlines and, for equal
ones, of their scheduling. Reading the clock moves all due timers into a batch, which then fires one
by one; a timer that was cancelled before its turn is passed over.
-/
namespace OpFlow

structure TimerEntry (τ : Type) where
  /-- The number of the timer, counted in the order of scheduling. -/
  id : Nat
  deadline : Nat
  callback : τ
  deriving Repr, Inhabited

/-- The timers, with times in milliseconds. -/
structure Timers (τ : Type) where
  /-- The last reading of the clock. -/
  now : Nat := 0
  /-- Timers that were not due then, earliest first. -/
  waiting : List (TimerEntry τ) := []
  /-- Due timers whose turn has not come yet. -/
  batch : List (TimerEntry τ) := []
  cancelled : List Nat := []
  scheduled : Nat := 0
  deriving Inhabited

namespace Timers

variable {τ : Type}

def insert (e : TimerEntry τ) : List (TimerEntry τ) → List (TimerEntry τ)
  | [] => [e]
  | x :: xs => if x.deadline ≤ e.deadline then x :: insert e xs else e :: x :: xs

def schedule (t : Timers τ) (delay : Nat) (callback : τ) : Timers τ × Nat :=
  ({ t with
      waiting := insert ⟨t.scheduled, t.now + delay, callback⟩ t.waiting
      scheduled := t.scheduled + 1 },
    t.scheduled)

def cancel (t : Timers τ) (id : Nat) : Timers τ := { t with cancelled := id :: t.cancelled }

def isCancelled (t : Timers τ) (id : Nat) : Bool := t.cancelled.contains id

def readClock (t : Timers τ) (now : Nat) : Timers τ :=
  { t with
    now := max t.now now
    waiting := t.waiting.dropWhile fun e => e.deadline ≤ max t.now now
    batch := t.batch ++ t.waiting.takeWhile fun e => e.deadline ≤ max t.now now }

def fire? (t : Timers τ) : Option (TimerEntry τ × Timers τ) :=
  match t.batch.dropWhile fun e => t.isCancelled e.id with
  | [] => none
  | e :: rest => some (e, { t with batch := rest })

def nextDeadline? (t : Timers τ) : Option Nat := t.waiting.head?.map TimerEntry.deadline

def Sorted (es : List (TimerEntry τ)) : Prop :=
  es.Pairwise fun a b => a.deadline < b.deadline ∨ a.deadline = b.deadline ∧ a.id < b.id

theorem mem_insert {e x : TimerEntry τ} {es : List (TimerEntry τ)} :
    x ∈ insert e es ↔ x = e ∨ x ∈ es := by
  induction es with
  | nil => simp [insert]
  | cons y ys ih =>
    simp only [insert]
    split
    · simp [ih, or_left_comm]
    · simp

/-- A timer scheduled last keeps the order. -/
theorem sorted_insert {e : TimerEntry τ} {es : List (TimerEntry τ)} (h : Sorted es)
    (hid : ∀ x ∈ es, x.id < e.id) : Sorted (insert e es) := by
  induction es with
  | nil => simp [insert, Sorted]
  | cons y ys ih =>
    have hy := List.pairwise_cons.1 h
    have hid' : ∀ x ∈ ys, x.id < e.id := fun x hx => hid x (by simp [hx])
    simp only [insert]
    split
    · refine List.pairwise_cons.2 ⟨?_, ih hy.2 hid'⟩
      intro x hx
      rcases mem_insert.1 hx with rfl | hx
      · have := hid y (by simp)
        omega
      · exact hy.1 x hx
    · refine List.pairwise_cons.2 ⟨?_, h⟩
      intro x hx
      rcases List.mem_cons.1 hx with rfl | hx
      · omega
      · have := hy.1 x hx
        omega

/-- Fires the batch to its end, at most `limit` timers. -/
def firedUpTo : Nat → Timers τ → List (TimerEntry τ)
  | 0, _ => []
  | limit + 1, t =>
    match t.fire? with
    | some (e, t) => e :: firedUpTo limit t
    | none => []

/-- The timers that fire, in order, when the clock is next read at `now`. -/
def firedBy (t : Timers τ) (now : Nat) : List (TimerEntry τ) :=
  firedUpTo (t.batch.length + t.waiting.length) (t.readClock now)

def ofDelays (delays : List (Nat × Bool)) : Timers Unit :=
  let t := delays.foldl (fun t d => (t.schedule d.1 ()).1) {}
  ((List.range delays.length).zip delays).foldl (fun t d => if d.2.2 then t.cancel d.1 else t) t

def order (t : Timers τ) : List Nat :=
  (t.firedBy ((t.waiting.map TimerEntry.deadline).foldl max 0)).map TimerEntry.id

def describeHandle (t : Timers τ) (id : Nat) : String :=
  Text.record "TimerHandle" [("cancelled", Text.boolean (t.isCancelled id))]

end Timers

end OpFlow
