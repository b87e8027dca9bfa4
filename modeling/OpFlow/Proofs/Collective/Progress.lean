import Mathlib.Algebra.GroupWithZero.Nat
import OpFlow.Proofs.Collective.Attendance

/-!
Progress of a party. A member that has not come, work that is asked for, and a member that waits at the
cell all weigh something, and each step that the party takes by itself makes the whole lighter; what
happens elsewhere leaves it as it is. So the members all get to the end of their calls.
-/
namespace OpFlow

open Machine (Effect)

def Work.toll : Work → Nat
  | .resolve _ _ => 3
  | w => w.participants.length + 1

def Effect.toll : Effect Work → Nat
  | .settle _ _ => 0
  | .work w | .submit _ w => w.toll

theorem Work.toll_resolve (values : List (List Bytes)) (t : Participant) :
    (Work.resolve values t).toll = 3 := rfl

theorem Work.toll_handOut (ts : List Participant) : (Work.handOut ts).toll = ts.length + 1 := rfl

theorem Work.toll_le (w : Work) : w.toll ≤ w.participants.length + 2 := by
  cases w <;> simp [toll, participants]

theorem Work.lt_toll (w : Work) : w.participants.length < w.toll := by
  cases w <;> simp [toll, participants]

namespace Party

variable {P : Party} {cell : Nat} {s s' : Bout}

variable (P) in
/-- How much there is to do for a party that meets for this cell, at most. -/
def weight (cell : Nat) (s : Bout) : Nat :=
  4 * (P.group.length - s.launched.length) + (s.asked.map Effect.toll).sum +
    ((P.desk s.platform).cells.waiters cell).length

theorem exists_own (h : ¬ P.IsComplete s) (p : Platform) :
    ∃ s', P.Own { s with platform := p } s' := by
  by_cases hall : ∀ r ∈ P.group, r ∈ s.launched
  · obtain ⟨w, hw⟩ : ∃ w, .work w ∈ s.asked := by
      by_contra hnone
      exact h ⟨hall, fun w hw => hnone ⟨w, hw⟩⟩
    obtain ⟨i, hi, hget⟩ := List.getElem_of_mem hw
    exact ⟨_, .perform (hget ▸ (List.getElem_cons_eraseIdx_perm hi).symm)⟩
  · push Not at hall
    obtain ⟨r, hr, hnew⟩ := hall
    exact ⟨_, .launch hr hnew⟩

theorem Performs.weight_lt {w : Work} {rest : List (Effect Work)} (h : P.Performs cell s rest w s')
    (hperm : s.asked.Perm (.work w :: rest)) : P.weight cell s' < P.weight cell s := by
  have hasked : (s.asked.map Effect.toll).sum = w.toll + (rest.map Effect.toll).sum := by
    rw [(hperm.map Effect.toll).sum_nat, List.map_cons, List.sum_cons]
    rfl
  rw [weight, weight, hasked]
  cases h with
  | register hr hpending =>
    rw [desk_register, Rendezvous.register, Cells.waiters_register hpending.1, if_pos rfl]
    simp only [Work.toll, Work.participants, List.length_append, List.length_singleton]
    omega
  | resolve hr hall hhosts hresult hnobody =>
    rw [hnobody]
    simp only [List.map_cons, List.sum_cons, Effect.toll, Work.toll_handOut, Work.toll_resolve,
      List.length_append, List.length_singleton, List.length_nil]
    omega
  | @receive r members _ hr hmembers hresult hw =>
    have hlt := w.lt_toll
    rw [hw, List.length_map, List.length_cons] at hlt
    have hdesk : P.desk (s.platform.setArena (P.host r) (P.final r).1) = P.desk s.platform := rfl
    rw [hdesk]
    simp only [List.map_cons, List.sum_cons, Effect.toll, Work.toll_handOut, List.length_map]
    omega
  | finish => simp [Work.toll]

theorem Met.weight_own (h : P.Met cell s) (hP : P.IsWellFormed) (hown : P.Own s s') :
    P.weight cell s' < P.weight cell s := by
  cases hown with
  | @launch r hr hnew =>
    obtain ⟨p, w, heq, hj⟩ := h.joins hP hr hnew
    have htoll := w.toll_le
    have hlt := (List.subperm_of_subset (List.nodup_cons.2 ⟨hnew, h.nodup⟩)
      (List.cons_subset.2 ⟨hr, h.subset⟩)).length_le
    rw [hj.participants, List.length_singleton] at htoll
    rw [List.length_cons] at hlt
    rw [heq, weight, weight, hj.waiters]
    simp only [List.map_cons, List.sum_cons, List.length_cons, Effect.toll]
    omega
  | perform hperm => exact (h.performs hP hperm).weight_lt hperm

theorem Met.inevitably (h : P.Met cell s) (hP : P.IsWellFormed) : P.Inevitably P.IsComplete s := by
  -- by induction on what there is to do, which what happens elsewhere leaves as it is
  obtain ⟨n, hn⟩ : ∃ n, P.weight cell s = n := ⟨_, rfl⟩
  induction n using Nat.strong_induction_on generalizing cell s with
  | _ n ih =>
    by_cases hdone : P.IsComplete s
    · exact .now hdone
    · refine .later (fun p _ => exists_own hdone p) fun p s' hp hown => ?_
      obtain ⟨cell', h', hwaiters⟩ := h.outside hp
      have hsame : P.weight cell' { s with platform := p } = P.weight cell s := by
        rw [weight, weight, hwaiters]
      exact ih _ (hn ▸ hsame ▸ h'.weight_own hP hown) (h'.own hP hown) rfl

theorem IsWellFormed.inevitably (hP : P.IsWellFormed) : P.Inevitably P.IsComplete P.start :=
  hP.met_start.inevitably hP

end Party

end OpFlow
