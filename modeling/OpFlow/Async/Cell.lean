import OpFlow.Error

/-!
Write-once cells: a cell is pending until it is settled, once, with a value or an error, and keeps
in order the waiters registered before. Settling hands out every waiter exactly once; a settled
cell takes no waiter and never changes again.
-/
namespace OpFlow

structure Cell (α κ : Type) where
  result : Option (Except Error α) := none
  waiters : List κ := []
  deriving Inhabited

abbrev Cells (α κ : Type) := Array (Cell α κ)

namespace Cells

variable {α κ : Type}

def result? (cs : Cells α κ) (c : Nat) : Option (Except Error α) := cs[c]?.bind Cell.result

def isSettled (cs : Cells α κ) (c : Nat) : Bool := (cs.result? c).isSome

def waiters (cs : Cells α κ) (c : Nat) : List κ := (cs[c]?.map Cell.waiters).getD []

def add (cs : Cells α κ) (r : Option (Except Error α)) : Cells α κ := cs.push { result := r }

def fresh (cs : Cells α κ) : Cells α κ × Nat := (cs.add none, cs.size)

/-- Settles a pending cell and hands out its waiters; a settled cell stays as it is. -/
def settle (cs : Cells α κ) (c : Nat) (r : Except Error α) : Cells α κ × List κ :=
  match cs[c]? with
  | some ⟨none, ws⟩ => (cs.setIfInBounds c ⟨some r, []⟩, ws)
  | _ => (cs, [])

/-- Adds a waiter to a pending cell, behind those it has. -/
def register (cs : Cells α κ) (c : Nat) (w : κ) : Cells α κ :=
  cs.modify c fun cell => { cell with waiters := cell.waiters ++ [w] }

@[simp] theorem size_add (cs : Cells α κ) (r : Option (Except Error α)) :
    (cs.add r).size = cs.size + 1 := by simp [add]

theorem result?_add (cs : Cells α κ) (r : Option (Except Error α)) (c : Nat) :
    (cs.add r).result? c = if c = cs.size then r else cs.result? c := by
  simp only [add, result?, Array.getElem?_push]
  split
  · rfl
  · rfl

@[simp] theorem size_fresh (cs : Cells α κ) : cs.fresh.1.size = cs.size + 1 := cs.size_add none

@[simp] theorem result?_fresh (cs : Cells α κ) (c : Nat) :
    cs.fresh.1.result? c = cs.result? c := by
  rw [fresh, result?_add]
  split
  · next h => simp [h, result?]
  · rfl

@[simp] theorem size_settle (cs : Cells α κ) (c : Nat) (r : Except Error α) :
    (cs.settle c r).1.size = cs.size := by
  unfold settle; split <;> simp

@[simp] theorem size_register (cs : Cells α κ) (c : Nat) (w : κ) :
    (cs.register c w).size = cs.size := by simp [register]

@[simp] theorem result?_register (cs : Cells α κ) (c d : Nat) (w : κ) :
    (cs.register c w).result? d = cs.result? d := by
  simp only [result?, register, Array.getElem?_modify]
  split
  · cases cs[d]? <;> rfl
  · rfl

theorem settle_of_isSettled {cs : Cells α κ} {c : Nat} (h : cs.isSettled c) (r : Except Error α) :
    cs.settle c r = (cs, []) := by
  simp only [isSettled, result?] at h
  unfold settle
  split
  · simp_all
  · rfl

theorem result?_settle_self {cs : Cells α κ} {c : Nat} (hc : c < cs.size)
    (h : cs.result? c = none) (r : Except Error α) :
    (cs.settle c r).1.result? c = some r := by
  have hget : cs[c]? = some cs[c] := by simp [hc]
  simp only [result?, hget, Option.bind_some] at h
  have : cs[c]? = some ⟨none, cs[c].waiters⟩ := by
    rw [hget, ← h]
  simp only [settle, this]
  simp [result?, hc]

theorem result?_settle_of_ne {cs : Cells α κ} {c d : Nat} (hne : c ≠ d) (r : Except Error α) :
    (cs.settle c r).1.result? d = cs.result? d := by
  unfold settle
  split
  · simp [result?, hne]
  · rfl

end Cells

end OpFlow
