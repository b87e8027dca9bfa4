import Mathlib.Data.List.Perm.Basic
import OpFlow.Timer

/-!
Timers kept in a heap, which gives up a greatest one. For the next timer to be a greatest one the
order of the heap is turned round, in the deadlines as well as in the numbers. Popping as long as
the timer on top is due leaves and gives the same timers as the sorted list does, in the same order.
-/
namespace OpFlow

variable {τ : Type} {a b e : TimerEntry τ} {now : Nat}

namespace TimerEntry

def cmp (a b : TimerEntry τ) : Ordering :=
  (compare b.deadline a.deadline).then (compare b.id a.id)

/-- The order in which timers are to fire. -/
def Before (a b : TimerEntry τ) : Prop :=
  a.deadline < b.deadline ∨ a.deadline = b.deadline ∧ a.id < b.id

theorem cmp_eq_lt : a.cmp b = .lt ↔ b.Before a := by
  simp [cmp, Before, Ordering.then_eq_lt, Nat.compare_eq_lt]

theorem Before.asymm (h : a.Before b) : ¬b.Before a := by
  unfold Before at *
  omega

end TimerEntry

/-- A heap gives up one of its greatest timers. -/
structure Pops (heap : List (TimerEntry τ)) (e : TimerEntry τ) (rest : List (TimerEntry τ)) :
    Prop where
  perm : heap.Perm (e :: rest)
  greatest : ∀ x ∈ heap, e.cmp x ≠ .lt

/-- Timers are popped as long as the one on top is due: those that were popped, and what is left. -/
inductive Drains (now : Nat) :
    List (TimerEntry τ) → List (TimerEntry τ) → List (TimerEntry τ) → Prop
  | empty : Drains now [] [] []
  | stop {heap rest : List (TimerEntry τ)} {e : TimerEntry τ} (htop : Pops heap e rest)
      (hlate : now < e.deadline) : Drains now heap [] heap
  | pop {heap rest expired left : List (TimerEntry τ)} {e : TimerEntry τ} (htop : Pops heap e rest)
      (hdue : e.deadline ≤ now) (hrest : Drains now rest expired left) :
      Drains now heap (e :: expired) left

namespace Timers

theorem perm_insert (e : TimerEntry τ) (es : List (TimerEntry τ)) : (insert e es).Perm (e :: es) := by
  induction es with
  | nil => exact .refl _
  | cons x xs ih =>
    simp only [insert]
    split
    · exact (ih.cons x).trans (.swap e x xs)
    · exact .refl _

end Timers

namespace Pops

variable {heap rest waiting : List (TimerEntry τ)}

theorem eq_cons (h : Pops heap e rest) (hsorted : Timers.Sorted waiting) (hperm : heap.Perm waiting) :
    ∃ later, waiting = e :: later ∧ rest.Perm later := by
  have he : e ∈ waiting := hperm.subset (h.perm.symm.subset List.mem_cons_self)
  cases waiting with
  | nil => cases he
  | cons x later =>
    rcases List.mem_cons.1 he with rfl | hlater
    · exact ⟨later, rfl, (List.perm_cons e).1 (h.perm.symm.trans hperm)⟩
    · have hbefore : x.Before e := (List.pairwise_cons.1 hsorted).1 e hlater
      exact absurd (TimerEntry.cmp_eq_lt.2 hbefore)
        (h.greatest x (hperm.symm.subset List.mem_cons_self))

theorem nextDeadline?_eq {t : Timers τ} (h : Pops heap e rest)
    (hsorted : Timers.Sorted t.waiting) (hperm : heap.Perm t.waiting) :
    t.nextDeadline? = some e.deadline := by
  obtain ⟨later, hwaiting, -⟩ := h.eq_cons hsorted hperm
  simp [Timers.nextDeadline?, hwaiting]

end Pops

theorem exists_pops {heap waiting : List (TimerEntry τ)} (hsorted : Timers.Sorted (e :: waiting))
    (hperm : heap.Perm (e :: waiting)) : Pops heap e waiting := by
  refine ⟨hperm, fun x hx hlt => ?_⟩
  have hbefore : x.Before e := TimerEntry.cmp_eq_lt.1 hlt
  rcases List.mem_cons.1 (hperm.subset hx) with rfl | hx
  · exact hbefore.asymm hbefore
  · exact hbefore.asymm ((List.pairwise_cons.1 hsorted).1 x hx)

theorem Drains.eq {heap waiting expired left : List (TimerEntry τ)}
    (h : Drains now heap expired left) (hsorted : Timers.Sorted waiting) (hperm : heap.Perm waiting) :
    expired = waiting.takeWhile (fun e => e.deadline ≤ now) ∧
      left.Perm (waiting.dropWhile fun e => e.deadline ≤ now) := by
  induction h generalizing waiting with
  | empty =>
    obtain rfl := List.nil_perm.1 hperm
    exact ⟨rfl, .refl _⟩
  | stop htop hlate =>
    obtain ⟨later, rfl, -⟩ := htop.eq_cons hsorted hperm
    simpa [Nat.not_le.2 hlate] using hperm
  | pop htop hdue _ ih =>
    obtain ⟨later, rfl, hrest⟩ := htop.eq_cons hsorted hperm
    simpa [hdue] using ih (List.pairwise_cons.1 hsorted).2 hrest

theorem exists_drains (now : Nat) {heap waiting : List (TimerEntry τ)}
    (hsorted : Timers.Sorted waiting) (hperm : heap.Perm waiting) :
    ∃ expired left, Drains now heap expired left := by
  induction waiting generalizing heap with
  | nil =>
    obtain rfl := hperm.eq_nil
    exact ⟨[], [], .empty⟩
  | cons e later ih =>
    have htop : Pops heap e later := exists_pops hsorted hperm
    by_cases hdue : e.deadline ≤ now
    · obtain ⟨expired, left, hrest⟩ := ih (List.pairwise_cons.1 hsorted).2 (.refl later)
      exact ⟨e :: expired, left, .pop htop hdue hrest⟩
    · exact ⟨[], heap, .stop htop (Nat.lt_of_not_le hdue)⟩

theorem Drains.readClock {t : Timers τ} {heap expired left : List (TimerEntry τ)}
    (h : Drains (max t.now now) heap expired left) (hsorted : Timers.Sorted t.waiting)
    (hperm : heap.Perm t.waiting) :
    (t.readClock now).batch = t.batch ++ expired ∧ left.Perm (t.readClock now).waiting := by
  obtain ⟨rfl, hleft⟩ := h.eq hsorted hperm
  exact ⟨rfl, hleft⟩

end OpFlow
