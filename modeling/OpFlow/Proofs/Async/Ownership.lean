import OpFlow.Proofs.Async.Deeds
import Mathlib.Data.List.Count

/-!
Who settles a cell. Every pending cell has exactly one owner: the promise that is to be kept, the job
that derives its value, or the join whose last input is still to be counted down. The owner goes with
the cell's origin, so a cell is settled once, and with what its origin comes to.
-/
namespace OpFlow.Async

variable {α : Type}

abbrev Ticketed (α : Type) := Nat × Job α

namespace Job

/-- The cell that a job is to settle, with the origin that it gives it. -/
def owns? : Job α → Option (Nat × Origin α)
  | derive source target f => some (target, .derived source f)
  | complete inputs target => some (target, .joined inputs)
  | attach _ k => k.owns?
  | act _ | countDown _ => none

def join? : Job α → Option Nat
  | countDown j => some j
  | attach _ k => k.join?
  | act _ | derive _ _ _ | complete _ _ => none

def claim? : Job α → Option (Nat × Nat)
  | attach c k => k.join?.map fun j => (j, c)
  | act _ | derive _ _ _ | countDown _ | complete _ _ => none

def Awaits (c : Nat) : Job α → Prop
  | act _ | countDown _ => True
  | derive source _ _ => source = c
  | attach _ _ | complete _ _ => False

end Job

def Event.made? : Event α → Option (Nat × Origin α)
  | made c o => some (c, o)
  | settled _ _ | registered _ _ | ran _ | returned _ => none

abbrev Made (α : Type) := List (Nat × Origin α)

namespace NetworkOf

variable (n : NetworkOf α (Ticketed α)) (free : List (Job α))

/-- A job that may be done now. -/
def Runs : Job α → Prop
  | .act _ | .countDown _ => True
  | .attach c k => c < n.cells.size ∧ k.Awaits c
  | .derive source _ _ => n.cells.isSettled source
  | .complete inputs _ => inputs.all n.cells.isSettled

def work : List (Job α) := free ++ n.cells.allWaiters.map Prod.snd

def promised : List Nat := n.promises.filterMap fun h => n.handles[h]?

def openJoins : List (Nat × Origin α) :=
  n.joins.toList.flatMap fun join =>
    if join.remaining = 0 then [] else [(join.target, .joined join.inputs)]

def owners : List (Nat × Origin α) :=
  n.promised.map (·, .promise) ++ (n.work free).filterMap Job.owns? ++ n.openJoins

def remaining (j : Nat) : Nat := (n.joins[j]?.map Join.remaining).getD 0

def inputs (j : Nat) : List Nat := (n.joins[j]?.map Join.inputs).getD []

/-- Everything in a network refers to cells that there are, and waits for pending ones. -/
structure Placed : Prop where
  done : n.cells.result? 0 = some (.ok .done)
  quiet : ∀ c, n.cells.isSettled c → n.cells.waiters c = []
  named : ∀ c, n.Names c → c < n.cells.size
  kept : ∀ h ∈ n.promises, h < n.handles.size
  nodup : n.promises.Nodup
  inputs : ∀ j, ∀ c ∈ n.inputs j, c < n.cells.size
  runs : ∀ k ∈ free, n.Runs k
  awaits : ∀ c, ∀ w ∈ n.cells.waiters c, w.2.Awaits c

/-- Each pending cell has one owner, which goes with the cell's origin, and a cell that has not been
promised is settled with what its origin comes to. -/
structure Owned (made : Made α) : Prop where
  owned : ∀ c, ((n.owners free).map Prod.fst).count c = if n.cells.IsPending c then 1 else 0
  fits : ∀ c o o', (c, o) ∈ n.owners free → (c, o') ∈ made → o' = o
  lt : ∀ c o, (c, o) ∈ made → c < n.cells.size
  settled : ∀ c o r, (c, o) ∈ made → n.cells.result? c = some r →
    o = .promise ∨ o.outcome? n.cells.result? = some r

/-- How often a cell is still to be counted for a join: by what waits for the cell, and by what is
still to be registered with it. -/
def awaited (j c : Nat) : Nat :=
  ((n.cells.waiters c).filterMap fun w => w.2.join?).count j + (free.filterMap Job.claim?).count (j, c)

/-- Each join counts the inputs that have not been counted down yet, and those that are pending still
have something that waits for them, or is about to. -/
structure Counted : Prop where
  counted : ∀ j, ((n.work free).filterMap Job.join?).count j = n.remaining j
  pending : ∀ j c, n.cells.IsPending c → (n.inputs j).count c = n.awaited free j c

variable {n} {n' : NetworkOf α (Ticketed α)} {free} {free' others : List (Job α)} {made : Made α}
  {c d : Nat}

namespace Owned

theorem settled_mono (h : n.Owned free made)
    (hmono : ∀ d r, n.cells.result? d = some r → n'.cells.result? d = some r)
    {o : Origin α} {r : Result α} (hmem : (c, o) ∈ made) (hc : n.cells.result? c = some r) :
    o = .promise ∨ o.outcome? n'.cells.result? = some r :=
  (h.settled c o r hmem hc).imp_right (Origin.outcome?_mono hmono)

theorem same (h : n.Owned free made) (hsize : n'.cells.size = n.cells.size)
    (hresult : n'.cells.result? = n.cells.result?)
    (howners : (n'.owners free').Perm (n.owners free)) : n'.Owned free' made := by
  have hpending : ∀ c, n'.cells.IsPending c ↔ n.cells.IsPending c := fun c => by
    rw [Cells.IsPending, Cells.IsPending, hsize, hresult]
  refine ⟨fun c => ?_, fun c o o' ho => h.fits c o o' (howners.mem_iff.1 ho),
    fun c o hc => hsize ▸ h.lt c o hc, fun c o r hmem hc => ?_⟩
  · rw [(howners.map Prod.fst).count_eq, h.owned]
    simp only [hpending]
  · rw [hresult] at hc ⊢
    exact h.settled c o r hmem hc

theorem not_pending_size : ¬ n.cells.IsPending n.cells.size := fun h => Nat.lt_irrefl _ h.1

/-- A cell is made. It is pending with an owner that goes with its origin, or it has been settled from
the start with what its origin comes to. -/
theorem add (h : n.Owned free made) {x : Option (Result α)} {o : Origin α}
    (hsize : n'.cells.size = n.cells.size + 1)
    (hresult : ∀ d, n'.cells.result? d = if d = n.cells.size then x else n.cells.result? d)
    (howners : (n'.owners free').Perm
      ((if x = none then [(n.cells.size, o)] else []) ++ n.owners free))
    (hx : ∀ r, x = some r → o.outcome? n.cells.result? = some r) :
    n'.Owned free' (made ++ [(n.cells.size, o)]) := by
  have hmono : ∀ d r, n.cells.result? d = some r → n'.cells.result? d = some r := fun d r hd => by
    have hlt := Cells.lt_size_of_result? hd
    rw [hresult, if_neg (by omega), hd]
  have hold : ∀ c o', (c, o') ∈ made → c ≠ n.cells.size := fun c o' hc hsize =>
    Nat.lt_irrefl _ (hsize ▸ h.lt c o' hc)
  have hnone : ∀ o', (n.cells.size, o') ∉ n.owners free := fun o' hmem => by
    have hpos := List.count_pos_iff.2 (List.mem_map_of_mem (f := Prod.fst) hmem)
    rw [h.owned, if_neg not_pending_size] at hpos
    cases hpos
  have hnew : ∀ c o', (c, o') ∈ n'.owners free' →
      (c, o') ∈ n.owners free ∨ c = n.cells.size ∧ o' = o := fun c o' hmem => by
    rcases List.mem_append.1 (howners.mem_iff.1 hmem) with hmem | hmem
    · split at hmem <;> simp_all
    · exact .inl hmem
  refine ⟨fun c => ?_, fun c o₁ o₂ h₁ h₂ => ?_, fun c o' hc => ?_, fun c o' r hmem hc => ?_⟩
  · rw [(howners.map Prod.fst).count_eq, List.map_append, List.count_append, h.owned]
    by_cases hc : c = n.cells.size
    · have hpending : n'.cells.IsPending c ↔ x = none := by
        simp [Cells.IsPending, hsize, hresult, hc]
      have hnot : ¬ n.cells.IsPending c := fun hc' => not_pending_size (hc ▸ hc')
      rw [if_neg hnot]
      simp only [hpending]
      split <;> simp [hc]
    · have hpending : n'.cells.IsPending c ↔ n.cells.IsPending c := by
        have hlt : c < n.cells.size + 1 ↔ c < n.cells.size := by omega
        simp [Cells.IsPending, hsize, hresult, hc, hlt]
      simp only [hpending]
      split <;> simp [Ne.symm hc]
  · rcases List.mem_append.1 h₂ with h₂ | h₂
    · rcases hnew c o₁ h₁ with h₁ | ⟨hc, -⟩
      · exact h.fits c o₁ o₂ h₁ h₂
      · exact absurd hc (hold c o₂ h₂)
    · obtain ⟨rfl, rfl⟩ := Prod.mk.inj (List.mem_singleton.1 h₂)
      rcases hnew _ o₁ h₁ with h₁ | ⟨-, rfl⟩
      · exact absurd h₁ (hnone o₁)
      · rfl
  · rcases List.mem_append.1 hc with hc | hc
    · have := h.lt c o' hc
      omega
    · obtain ⟨rfl, rfl⟩ := Prod.mk.inj (List.mem_singleton.1 hc)
      omega
  · rw [hresult] at hc
    rcases List.mem_append.1 hmem with hmem | hmem
    · rw [if_neg (hold c o' hmem)] at hc
      exact h.settled_mono hmono hmem hc
    · obtain ⟨rfl, rfl⟩ := Prod.mk.inj (List.mem_singleton.1 hmem)
      rw [if_pos rfl] at hc
      exact .inr (Origin.outcome?_mono hmono (hx r hc))

/-- A pending cell is settled by its owner, with what its origin comes to. -/
theorem settle (h : n.Owned free made) {o : Origin α} {r : Result α} (hc : n.cells.IsPending c)
    (hsize : n'.cells.size = n.cells.size)
    (hresult : ∀ d, n'.cells.result? d = if d = c then some r else n.cells.result? d)
    (howners : (n.owners free).Perm ((c, o) :: n'.owners free'))
    (hr : o = .promise ∨ o.outcome? n.cells.result? = some r) : n'.Owned free' made := by
  have hmono : ∀ d r, n.cells.result? d = some r → n'.cells.result? d = some r := fun d r' hd => by
    rw [hresult, if_neg, hd]
    rintro rfl
    rw [hc.2] at hd
    cases hd
  refine ⟨fun d => ?_, fun d o₁ o₂ h₁ h₂ => ?_, fun d o' hd => hsize ▸ h.lt d o' hd,
    fun d o' r' hmem hd => ?_⟩
  · have hcount := (howners.map Prod.fst).count_eq d
    rw [h.owned, List.map_cons, List.count_cons] at hcount
    by_cases hd : d = c
    · subst hd
      have hover : ¬ n'.cells.IsPending d := by simp [Cells.IsPending, hresult]
      rw [if_pos hc] at hcount
      rw [if_neg hover]
      simpa using hcount.symm
    · have hpending : n'.cells.IsPending d ↔ n.cells.IsPending d := by
        simp [Cells.IsPending, hsize, hresult, hd]
      simp only [hpending, hcount]
      simp [Ne.symm hd]
  · exact h.fits d o₁ o₂ (howners.mem_iff.2 (List.mem_cons_of_mem _ h₁)) h₂
  · rw [hresult] at hd
    by_cases hdc : d = c
    · subst hdc
      obtain rfl := h.fits d o o' (howners.mem_iff.2 List.mem_cons_self) hmem
      obtain rfl : r = r' := by simpa using hd
      exact hr.imp_right (Origin.outcome?_mono hmono)
    · rw [if_neg hdc] at hd
      exact h.settled_mono hmono hmem hd

/-- A join is noted that has happened already. -/
theorem trivial (h : n.Owned free made) (hplaced : n.Placed free) {inputs : List Nat}
    (ho : joinOf (inputs.map n.cells.result?) = some (.ok .done)) :
    n.Owned free (made ++ [(0, .joined inputs)]) := by
  have hlt := Cells.lt_size_of_result? hplaced.done
  have hnot : ¬ n.cells.IsPending 0 := fun hpending => by
    have hnone := hpending.2
    rw [hplaced.done] at hnone
    cases hnone
  refine ⟨h.owned, fun c o₁ o₂ h₁ h₂ => ?_, fun c o' hc => ?_, fun c o' r hmem hc => ?_⟩
  · rcases List.mem_append.1 h₂ with h₂ | h₂
    · exact h.fits c o₁ o₂ h₁ h₂
    · obtain ⟨rfl, rfl⟩ := Prod.mk.inj (List.mem_singleton.1 h₂)
      have hpos := List.count_pos_iff.2 (List.mem_map_of_mem (f := Prod.fst) h₁)
      rw [h.owned, if_neg hnot] at hpos
      cases hpos
  · rcases List.mem_append.1 hc with hc | hc
    · exact h.lt c o' hc
    · obtain ⟨rfl, rfl⟩ := Prod.mk.inj (List.mem_singleton.1 hc)
      exact hlt
  · rcases List.mem_append.1 hmem with hmem | hmem
    · exact h.settled c o' r hmem hc
    · obtain ⟨rfl, rfl⟩ := Prod.mk.inj (List.mem_singleton.1 hmem)
      rw [hplaced.done] at hc
      exact .inr (ho.trans hc)

end Owned

end NetworkOf

end OpFlow.Async
