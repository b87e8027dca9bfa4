import Mathlib.Data.List.Permutation
import OpFlow.Async.Cell

/-!
Who waits for which cells, and what settling a cell and waiting for one change about it.
-/
namespace OpFlow

/-- Only one entry contributes differently when one entry changes. -/
theorem exists_flatMap_perm {β γ : Type} (f : β → List γ) {xs : List β} {i : Nat} {y : β}
    (hy : xs[i]? = some y) :
    ∃ rest, (xs.flatMap f).Perm (f y ++ rest) ∧
      ∀ z, ((xs.set i z).flatMap f).Perm (f z ++ rest) := by
  induction xs generalizing i with
  | nil => simp at hy
  | cons u us ih =>
    cases i with
    | zero =>
      obtain rfl : u = y := by simpa using hy
      exact ⟨us.flatMap f, by simp, fun z => by simp⟩
    | succ i =>
      obtain ⟨rest, hxs, hset⟩ := ih (i := i) (by simpa using hy)
      have hswap : ∀ v : List γ, (f u ++ (v ++ rest)).Perm (v ++ (f u ++ rest)) := fun v => by
        rw [← List.append_assoc, ← List.append_assoc]
        exact List.perm_append_comm.append_right rest
      refine ⟨f u ++ rest, ?_, fun z => ?_⟩
      · rw [List.flatMap_cons]
        exact (hxs.append_left _).trans (hswap _)
      · rw [List.set_cons_succ, List.flatMap_cons]
        exact ((hset z).append_left _).trans (hswap _)

theorem getD_concat {β : Type} (xs : List (List β)) (x : List β) (i : Nat) :
    (xs ++ [x])[i]?.getD [] = if i = xs.length then x else xs[i]?.getD [] := by
  rcases Nat.lt_trichotomy i xs.length with hlt | rfl | hlt
  · rw [List.getElem?_append_left hlt, if_neg (Nat.ne_of_lt hlt)]
  · simp
  · rw [List.getElem?_eq_none (Nat.le_of_lt hlt), if_neg (Nat.ne_of_gt hlt),
      List.getElem?_eq_none (by rw [List.length_append]; exact hlt)]

namespace Cells

variable {α κ : Type} (cs : Cells α κ)

def allWaiters : List κ := cs.toList.flatMap Cell.waiters

@[simp] theorem allWaiters_add (r : Option (Except Error α)) :
    (cs.add r).allWaiters = cs.allWaiters := by
  simp [add, allWaiters]

@[simp] theorem allWaiters_fresh : cs.fresh.1.allWaiters = cs.allWaiters := cs.allWaiters_add none

theorem perm_allWaiters_settle (c : Nat) (r : Except Error α) :
    ((cs.settle c r).2 ++ (cs.settle c r).1.allWaiters).Perm cs.allWaiters := by
  unfold settle
  split
  case h_1 ws hc =>
    have hget : cs.toList[c]? = some ⟨none, ws⟩ := by simpa using hc
    obtain ⟨rest, hold, hnew⟩ := exists_flatMap_perm Cell.waiters hget
    have hset := hnew ⟨some r, []⟩
    simp only [allWaiters, Array.toList_setIfInBounds]
    exact (hset.append_left ws).trans hold.symm
  case h_2 => exact .refl _

theorem perm_allWaiters_register {c : Nat} (hc : c < cs.size) (w : κ) :
    (cs.register c w).allWaiters.Perm (w :: cs.allWaiters) := by
  have hget : cs.toList[c]? = some cs[c] := by simp [hc]
  obtain ⟨rest, hold, hnew⟩ := exists_flatMap_perm Cell.waiters hget
  have hset := hnew { cs[c] with waiters := cs[c].waiters ++ [w] }
  have hlist : (cs.register c w).toList =
      cs.toList.set c { cs[c] with waiters := cs[c].waiters ++ [w] } := by
    simp [register, List.modify_eq_set_get, hc]
  rw [allWaiters, hlist]
  refine hset.trans ?_
  rw [List.append_assoc]
  exact List.perm_middle.trans ((hold.symm).cons w)

@[simp] theorem waiters_add (r : Option (Except Error α)) (d : Nat) :
    (cs.add r).waiters d = cs.waiters d := by
  simp only [add, waiters, Array.getElem?_push]
  split
  · next h => simp [h]
  · rfl

@[simp] theorem waiters_fresh (d : Nat) : cs.fresh.1.waiters d = cs.waiters d := cs.waiters_add none d

theorem mem_waiters_register {c d : Nat} {w v : κ} (h : v ∈ (cs.register c w).waiters d) :
    v ∈ cs.waiters d ∨ c = d ∧ v = w := by
  simp only [waiters, register, Array.getElem?_modify] at h ⊢
  split at h
  · next hcd =>
    subst hcd
    cases hc : cs[c]? with
    | none => simp [hc] at h
    | some cell => simpa [hc] using h
  · exact .inl h

theorem result?_settle_of_ne_none {c d : Nat} (h : cs.result? d ≠ none) (r : Except Error α) :
    (cs.settle c r).1.result? d = cs.result? d := by
  by_cases hcd : c = d
  · rw [hcd, settle_of_isSettled (by simpa [isSettled, Option.isSome_iff_ne_none] using h)]
  · exact result?_settle_of_ne hcd r

/-- Who still waits after a cell is settled waited before, and for another cell, unless that cell
was settled already. -/
theorem mem_waiters_settle {c d : Nat} {r : Except Error α} {v : κ}
    (h : v ∈ (cs.settle c r).1.waiters d) :
    v ∈ cs.waiters d ∧ (c = d → cs.result? c ≠ none ∨ cs.size ≤ c) := by
  unfold settle at h
  split at h
  · next ws hc =>
    by_cases hcd : c = d
    · subst hcd
      have hlt : c < cs.size := (Array.getElem?_eq_some_iff.1 hc).1
      simp [waiters, hlt] at h
    · refine ⟨?_, fun heq => (hcd heq).elim⟩
      simpa [waiters, hcd] using h
  · next hc =>
    refine ⟨h, fun _ => ?_⟩
    by_contra hne
    obtain ⟨hnone, hlt⟩ := not_or.1 hne
    have hlt : c < cs.size := Nat.lt_of_not_le hlt
    have hget : cs[c]? = some cs[c] := by simp [hlt]
    have hpending : cs[c].result = none := by
      simpa [result?, hget] using hnone
    exact hc cs[c].waiters (by rw [hget, ← hpending])

theorem mem_waiters_of_mem_settle {c : Nat} {r : Except Error α} {v : κ}
    (h : v ∈ (cs.settle c r).2) : v ∈ cs.waiters c := by
  unfold settle at h
  split at h
  · next ws hc => simpa [waiters, hc] using h
  · cases h

theorem mem_allWaiters {v : κ} : v ∈ cs.allWaiters ↔ ∃ d, v ∈ cs.waiters d := by
  simp only [allWaiters, waiters, List.mem_flatMap, Array.mem_toList_iff, Array.mem_iff_getElem?]
  constructor
  · rintro ⟨cell, ⟨d, hd⟩, hv⟩
    exact ⟨d, by simpa [hd] using hv⟩
  · rintro ⟨d, hv⟩
    cases hd : cs[d]? with
    | none => simp [hd] at hv
    | some cell => exact ⟨cell, ⟨d, hd⟩, by simpa [hd] using hv⟩

/-! ### One cell at a time -/

def IsPending (c : Nat) : Prop := c < cs.size ∧ cs.result? c = none

instance (c : Nat) : Decidable (cs.IsPending c) :=
  inferInstanceAs (Decidable (c < cs.size ∧ cs.result? c = none))

variable {cs} {c : Nat}

theorem isSettled_iff : cs.isSettled c ↔ ∃ r, cs.result? c = some r := Option.isSome_iff_exists

theorem isSettled_eq_false_iff : cs.isSettled c = false ↔ cs.result? c = none :=
  Option.not_isSome_iff_eq_none.symm.trans (by simp [isSettled]) |>.symm

theorem IsPending.not_isSettled (h : cs.IsPending c) : cs.isSettled c = false :=
  isSettled_eq_false_iff.2 h.2

theorem lt_size_of_result? {r : Except Error α} (h : cs.result? c = some r) : c < cs.size := by
  by_contra hlt
  simp [result?, Array.getElem?_eq_none (Nat.le_of_not_lt hlt)] at h

theorem waiters_of_size_le (h : cs.size ≤ c) : cs.waiters c = [] := by
  simp [waiters, Array.getElem?_eq_none h]

theorem waiters_register (hc : c < cs.size) (w : κ) (d : Nat) :
    (cs.register c w).waiters d = if d = c then cs.waiters c ++ [w] else cs.waiters d := by
  simp only [waiters, register, Array.getElem?_modify]
  by_cases hd : d = c
  · subst hd
    simp [hc]
  · simp [hd, Ne.symm hd]

theorem IsPending.getElem? (h : cs.IsPending c) : cs[c]? = some ⟨none, cs.waiters c⟩ := by
  obtain ⟨hlt, hnone⟩ := h
  have hget : cs[c]? = some cs[c] := by simp [hlt]
  simp only [result?, hget, Option.bind_some] at hnone
  simp only [waiters, hget, Option.map_some, Option.getD_some]
  rw [← hnone]

theorem settle_of_isPending (h : cs.IsPending c) (r : Except Error α) :
    cs.settle c r = (cs.setIfInBounds c ⟨some r, []⟩, cs.waiters c) := by
  rw [settle, h.getElem?]

theorem settle_of_not_isPending (h : ¬ cs.IsPending c) (r : Except Error α) :
    cs.settle c r = (cs, []) := by
  unfold settle
  split
  · next ws hc => exact absurd ⟨(Array.getElem?_eq_some_iff.1 hc).1, by simp [result?, hc]⟩ h
  · rfl

theorem result?_settle (h : cs.IsPending c) (r : Except Error α) (d : Nat) :
    (cs.settle c r).1.result? d = if d = c then some r else cs.result? d := by
  split
  · next hd => rw [hd, result?_settle_self h.1 h.2]
  · next hd => exact result?_settle_of_ne (Ne.symm hd) r

theorem result?_settle_or (c : Nat) (r : Except Error α) (d : Nat) :
    (cs.settle c r).1.result? d = cs.result? d ∨ (cs.settle c r).1.result? d = some r := by
  by_cases h : cs.IsPending c
  · rw [result?_settle h]
    split
    · exact .inr rfl
    · exact .inl rfl
  · rw [settle_of_not_isPending h]
    exact .inl rfl

theorem waiters_settle (h : cs.IsPending c) (r : Except Error α) (d : Nat) :
    (cs.settle c r).1.waiters d = if d = c then [] else cs.waiters d := by
  rw [settle_of_isPending h]
  by_cases hd : d = c
  · subst hd
    simp [waiters, h.1]
  · simp [waiters, hd, Ne.symm hd]

end Cells

end OpFlow
