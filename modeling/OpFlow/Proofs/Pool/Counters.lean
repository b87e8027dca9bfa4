import OpFlow.Runner.Workshop
import Mathlib.Algebra.BigOperators.Fin
import Mathlib.Algebra.Order.BigOperators.Group.Finset

/-!
The counters of a pool. The tasks that were started and those that are queued are the tasks that
were pushed, in that order. The counters are atomic but not together, so each is off by the threads
that stand between two of its changes.
-/
namespace OpFlow

/-- The tasks that a worker is busy with. -/
def Worker.load {τ : Type} : Worker τ → Nat
  | taken _ | running _ => 1
  | ready | seeking | guarding | asleep | gone => 0

def Worker.unbegun {τ : Type} : Worker τ → Nat
  | taken _ => 1
  | ready | running _ | seeking | guarding | asleep | gone => 0

namespace Errand

variable {n : Nat} {τ : Type}

def unpushed : Errand n τ → Nat
  | counted _ => 1
  | none | checked _ | pushed _ | closing _ | collecting | joining .. => 0

def unreturned : Errand n τ → Nat
  | pushed _ => 1
  | none | checked _ | counted _ | closing _ | collecting | joining .. => 0

theorem unpushed_eq_zero {e : Errand n τ} (h : e.submits = false) : e.unpushed = 0 := by
  cases e <;> first | rfl | cases h

theorem unreturned_eq_zero {e : Errand n τ} (h : e.submits = false) : e.unreturned = 0 := by
  cases e <;> first | rfl | cases h

end Errand

namespace Workshop

def tally {ι α : Type} [Fintype ι] (f : α → Nat) (g : ι → α) : Nat := ∑ i, f (g i)

theorem tally_update {ι α : Type} [Fintype ι] [DecidableEq ι] (f : α → Nat) (g : ι → α) (i : ι)
    (a : α) : tally f (Function.update g i a) + f (g i) = tally f g + f a := by
  have hrest : ∑ j ∈ Finset.univ.erase i, f (Function.update g i a j) =
      ∑ j ∈ Finset.univ.erase i, f (g j) :=
    Finset.sum_congr rfl fun j hj => by rw [Function.update_of_ne (Finset.ne_of_mem_erase hj)]
  have hi := Finset.mem_univ i
  rw [tally, tally, ← Finset.sum_erase_add _ _ hi, ← Finset.sum_erase_add _ (fun j => f (g j)) hi,
    hrest, Function.update_self]
  omega

theorem tally_eq_zero {ι α : Type} [Fintype ι] {f : α → Nat} {g : ι → α} (h : ∀ i, f (g i) = 0) :
    tally f g = 0 :=
  Finset.sum_eq_zero fun i _ => h i

variable {n m : Nat} {τ : Type} {s s' : Workshop n m τ}

theorem tally_put (s : Workshop n m τ) (w : Fin n) (p : Worker τ) (f : Worker τ → Nat) :
    tally f (s.put w p).workers + f (s.workers w) = tally f s.workers + f p :=
  tally_update f s.workers w p

theorem tally_send (s : Workshop n m τ) (x : Caller n m) (e : Errand n τ) (f : Errand n τ → Nat) :
    tally f (s.send x e).errands + f (s.errands x) = tally f s.errands + f e :=
  tally_update f s.errands x e

/-- Only a worker that runs a task calls the pool, and no worker leaves an open one. -/
structure Placed (s : Workshop n m τ) : Prop where
  called : ∀ w, s.errands (.worker w) ≠ .none → ∃ t, s.workers w = .running t
  closed : ∀ w, s.workers w = .gone → s.pool.closed = true

theorem Placed.idle (h : s.Placed) {w : Fin n} (hw : ∀ t, s.workers w ≠ .running t) :
    s.errands (.worker w) = .none := by
  by_contra hne
  obtain ⟨t, ht⟩ := h.called w hne
  exact hw t ht

theorem Placed.put (h : s.Placed) {w : Fin n} {p : Worker τ}
    (hcalled : s.errands (.worker w) = .none ∨ ∃ t, p = .running t)
    (hgone : p = .gone → s.pool.closed = true) : (s.put w p).Placed where
  called v hv := by
    rcases eq_or_ne v w with rfl | hne
    · rw [put_workers_self]
      exact hcalled.resolve_left hv
    · rw [put_workers_of_ne _ _ _ hne]
      exact h.called v hv
  closed v hv := by
    rcases eq_or_ne v w with rfl | hne
    · exact hgone (by simpa using hv)
    · rw [put_workers_of_ne _ _ _ hne] at hv
      exact h.closed v hv

theorem Placed.send (h : s.Placed) {x : Caller n m} {e : Errand n τ}
    (hcalled : ∀ w, x = .worker w → ∃ t, s.workers w = .running t) : (s.send x e).Placed where
  called w hw := by
    rcases eq_or_ne (.worker w) x with heq | hne
    · exact hcalled w heq.symm
    · rw [send_errands_of_ne _ _ _ hne] at hw
      exact h.called w hw
  closed := h.closed

/-- The history of a pool, its counters and the threads around it agree. -/
structure Orderly (s : Workshop n m τ) : Prop extends Placed s where
  order : s.started ++ s.pool.queue = s.pushed.map Prod.snd
  busy : s.pool.busy = tally Worker.load s.workers
  completed : s.pool.completed + s.pool.busy = s.started.length
  pending : s.pending = s.pool.queue.length + tally Worker.unbegun s.workers +
    tally Errand.unpushed s.errands
  accepted : s.accepted.length + tally Errand.unreturned s.errands = s.pushed.length

namespace Orderly

theorem new : Orderly ({} : Workshop n m τ) := by
  have hworkers (f : Worker τ → Nat) (hf : f .ready = 0) :
      tally f ({} : Workshop n m τ).workers = 0 := tally_eq_zero fun _ => hf
  have herrands (f : Errand n τ → Nat) (hf : f .none = 0) :
      tally f ({} : Workshop n m τ).errands = 0 := tally_eq_zero fun _ => hf
  refine ⟨⟨fun _ h => (h rfl).elim, fun _ h => nomatch h⟩, rfl, ?_, rfl, ?_, ?_⟩
  · rw [hworkers _ rfl]
    rfl
  · rw [hworkers _ rfl, herrands _ rfl]
    rfl
  · rw [herrands _ rfl]
    rfl

/-- A worker moves, and the counters move by what its place counts for. -/
theorem of_put (h : s.Orderly) {w : Fin n} {p : Worker τ} (hplaced : s'.Placed)
    (hworkers : s'.workers = (s.put w p).workers) (herrands : s'.errands = s.errands)
    (hpushed : s'.pushed = s.pushed) (haccepted : s'.accepted = s.accepted)
    (horder : s'.started ++ s'.pool.queue = s.started ++ s.pool.queue)
    (hbusy : s'.pool.busy + (s.workers w).load = s.pool.busy + p.load)
    (hcompleted : s'.pool.completed + s'.pool.busy = s'.started.length)
    (hpending : s'.pending + s.pool.queue.length + (s.workers w).unbegun =
      s.pending + s'.pool.queue.length + p.unbegun) : s'.Orderly := by
  have hload := s.tally_put w p Worker.load
  have hunbegun := s.tally_put w p Worker.unbegun
  have hbusy' := h.busy
  have hpending' := h.pending
  refine ⟨hplaced, ?_, ?_, hcompleted, ?_, ?_⟩
  · rw [horder, hpushed]
    exact h.order
  · rw [hworkers]
    omega
  · rw [hworkers, herrands]
    omega
  · rw [haccepted, herrands, hpushed]
    exact h.accepted

/-- A caller moves, and the counters move by what its errand counts for. -/
theorem of_send (h : s.Orderly) {x : Caller n m} {e : Errand n τ} (hplaced : s'.Placed)
    (herrands : s'.errands = (s.send x e).errands) (hworkers : s'.workers = s.workers)
    (hbusy : s'.pool.busy = s.pool.busy) (hcompleted : s'.pool.completed = s.pool.completed)
    (hstarted : s'.started = s.started)
    (horder : s'.started ++ s'.pool.queue = s'.pushed.map Prod.snd)
    (hpending : s'.pending + s.pool.queue.length + (s.errands x).unpushed =
      s.pending + s'.pool.queue.length + e.unpushed)
    (haccepted : s'.accepted.length + s.pushed.length + e.unreturned =
      s.accepted.length + s'.pushed.length + (s.errands x).unreturned) : s'.Orderly := by
  have hunpushed := s.tally_send x e Errand.unpushed
  have hunreturned := s.tally_send x e Errand.unreturned
  have hpending' := h.pending
  have haccepted' := h.accepted
  refine ⟨hplaced, horder, ?_, ?_, ?_, ?_⟩
  · rw [hbusy, hworkers]
    exact h.busy
  · rw [hbusy, hcompleted, hstarted]
    exact h.completed
  · rw [herrands, hworkers]
    omega
  · rw [herrands]
    omega

theorem put (h : s.Orderly) {w : Fin n} {p : Worker τ} (hload : p.load = (s.workers w).load)
    (hunbegun : p.unbegun = (s.workers w).unbegun) (hplaced : (s.put w p).Placed) :
    (s.put w p).Orderly :=
  h.of_put hplaced rfl rfl rfl rfl rfl (by rw [hload]; rfl) h.completed (by rw [hunbegun]; rfl)

theorem send (h : s.Orderly) {x : Caller n m} {e : Errand n τ}
    (hunpushed : e.unpushed = (s.errands x).unpushed)
    (hunreturned : e.unreturned = (s.errands x).unreturned) (hplaced : (s.send x e).Placed) :
    (s.send x e).Orderly :=
  h.of_send hplaced rfl rfl rfl rfl rfl h.order (by rw [hunpushed]; rfl) (by rw [hunreturned]; rfl)

theorem load_le (h : s.Orderly) (w : Fin n) : (s.workers w).load ≤ s.pool.busy := by
  have hload := s.tally_put w .gone Worker.load
  have hgone : Worker.load (.gone : Worker τ) = 0 := rfl
  have hbusy := h.busy
  omega

theorem unbegun_le (h : s.Orderly) (w : Fin n) : (s.workers w).unbegun ≤ s.pending := by
  have hunbegun := s.tally_put w .gone Worker.unbegun
  have hgone : Worker.unbegun (.gone : Worker τ) = 0 := rfl
  have hpending := h.pending
  omega

theorem take (h : s.Orderly) {w : Fin n} {t : τ} {pool : WorkerPool τ}
    (hw : s.workers w = .ready) (ht : s.pool.take? = some (t, pool)) :
    (s.take w t pool).Orderly := by
  obtain ⟨rest, hqueue, rfl⟩ := WorkerPool.take?_eq_some_iff.1 ht
  have hplaced := h.toPlaced.put (w := w) (p := .taken t) (.inl (h.idle (by simp [hw]))) nofun
  have hcompleted := h.completed
  refine h.of_put ⟨hplaced.called, hplaced.closed⟩ rfl rfl rfl rfl ?_ ?_ ?_ ?_
  · change (s.started ++ [t]) ++ rest = s.started ++ s.pool.queue
    rw [List.append_assoc, hqueue]
    rfl
  · rw [hw]
    rfl
  · change s.pool.completed + (s.pool.busy + 1) = (s.started ++ [t]).length
    rw [List.length_append, List.length_singleton]
    omega
  · rw [hw, hqueue]
    change s.pending + (rest.length + 1) + 0 = s.pending + rest.length + 1
    omega

theorem run (h : s.Orderly) {w : Fin n} {t : τ} (hw : s.workers w = .taken t) :
    (s.run w t).Orderly := by
  have hplaced := h.toPlaced.put (w := w) (p := .running t) (.inr ⟨t, rfl⟩) nofun
  have hle : 1 ≤ s.pending := by simpa [hw, Worker.unbegun] using h.unbegun_le w
  refine h.of_put ⟨hplaced.called, hplaced.closed⟩ rfl rfl rfl rfl rfl ?_ h.completed ?_
  · rw [hw]
    rfl
  · rw [hw]
    change s.pending - 1 + s.pool.queue.length + 1 = s.pending + s.pool.queue.length + 0
    omega

theorem finish (h : s.Orderly) {w : Fin n} {t : τ} (hw : s.workers w = .running t)
    (hx : s.errands (.worker w) = .none) : (s.finish w).Orderly := by
  have hplaced := h.toPlaced.put (w := w) (p := .ready) (.inl hx) nofun
  have hle : 1 ≤ s.pool.busy := by simpa [hw, Worker.load] using h.load_le w
  have hcompleted := h.completed
  refine h.of_put ⟨hplaced.called, hplaced.closed⟩ rfl rfl rfl rfl rfl ?_ ?_ ?_
  · rw [hw]
    change s.pool.busy - 1 + 1 = s.pool.busy + 0
    omega
  · change s.pool.completed + 1 + (s.pool.busy - 1) = s.started.length
    omega
  · rw [hw]
    rfl

theorem works (h : s.Orderly) {w : Fin n} (hs : Works w s s') : s'.Orderly := by
  -- where a worker runs no task before and none after, only its place in the loop changes
  have hplaced {p : Worker τ} (hw : ∀ t, s.workers w ≠ .running t)
      (hgone : p = .gone → s.pool.closed = true) : (s.put w p).Placed :=
    h.toPlaced.put (.inl (h.idle hw)) hgone
  cases hs with
  | take hw ht => exact h.take hw ht
  | run hw => exact h.run hw
  | finish panics hw hx => exact h.finish hw hx
  | leave hw hclosed =>
    exact h.put (by rw [hw]; rfl) (by rw [hw]; rfl) (hplaced (by simp [hw]) fun _ => hclosed)
  | miss hw | retry hw | guard hw | sleep hw | wake hw =>
    exact h.put (by rw [hw]; rfl) (by rw [hw]; rfl) (hplaced (by simp [hw]) nofun)

theorem count (h : s.Orderly) {x : Caller n m} {t : τ} (hx : s.errands x = .checked t)
    (hplaced : (s.send x (.counted t)).Placed) : (s.count x t).Orderly := by
  refine h.of_send ⟨hplaced.called, hplaced.closed⟩ rfl rfl rfl rfl rfl h.order ?_ ?_
  · rw [hx]
    change s.pending + 1 + s.pool.queue.length + 0 = s.pending + s.pool.queue.length + 1
    omega
  · rw [hx]
    rfl

theorem push (h : s.Orderly) {x : Caller n m} {t : τ} (hx : s.errands x = .counted t)
    (hplaced : (s.send x (.pushed s.pushed.length)).Placed) : (s.push x t).Orderly := by
  refine h.of_send ⟨hplaced.called, hplaced.closed⟩ rfl rfl rfl rfl rfl ?_ ?_ ?_
  · change s.started ++ (s.pool.queue ++ [t]) = (s.pushed ++ [(x, t)]).map Prod.snd
    rw [← List.append_assoc, h.order, List.map_append]
    rfl
  · rw [hx]
    change s.pending + s.pool.queue.length + 1 = s.pending + (s.pool.queue ++ [t]).length + 0
    rw [List.length_append, List.length_singleton]
    omega
  · rw [hx]
    change s.accepted.length + s.pushed.length + 1 =
      s.accepted.length + (s.pushed ++ [(x, t)]).length + 0
    rw [List.length_append, List.length_singleton]
    omega

theorem accept (h : s.Orderly) {x : Caller n m} {ticket : Nat} (hx : s.errands x = .pushed ticket)
    (hplaced : (s.send x .none).Placed) : (s.accept x ticket).Orderly := by
  refine h.of_send ⟨hplaced.called, hplaced.closed⟩ rfl rfl rfl rfl rfl h.order ?_ ?_
  · rw [hx]
    rfl
  · rw [hx]
    change (s.accepted ++ [ticket]).length + s.pushed.length + 0 =
      s.accepted.length + s.pushed.length + 1
    rw [List.length_append, List.length_singleton]
    omega

theorem calls (h : s.Orderly) {x : Caller n m} (hs : Calls x s s') : s'.Orderly := by
  have hplaced {e : Errand n τ} (hx : s.errands x ≠ .none) : (s.send x e).Placed :=
    h.toPlaced.send fun w hw => h.called w (hw ▸ hx)
  cases hs with
  | check t hx hopen =>
    exact h.send (by rw [hx.1]; rfl) (by rw [hx.1]; rfl) (h.toPlaced.send hx.2)
  | count hx => exact h.count hx (hplaced (by simp [hx]))
  | push hx => exact h.push hx (hplaced (by simp [hx]))
  | accept hx hfree => exact h.accept hx (hplaced (by simp [hx]))
  | close waits hx =>
    have hcloses := h.toPlaced.send (e := .closing waits) hx.2
    exact h.of_send ⟨hcloses.called, fun _ _ => rfl⟩ rfl rfl rfl rfl rfl h.order
      (by rw [hx.1]; rfl) (by rw [hx.1]; rfl)
  | collect hx =>
    have hjoins : (s.send x (.joining [] s.handles true)).Placed := hplaced (by simp [hx])
    exact h.of_send ⟨hjoins.called, hjoins.closed⟩ rfl rfl rfl rfl rfl h.order
      (by rw [hx]; rfl) (by rw [hx]; rfl)
  | closed hx | rouse hx | overflow hx | pass hx | join hx | giveUp hx | report hx =>
    exact h.send (by rw [hx]; rfl) (by rw [hx]; rfl) (hplaced (by simp [hx]))

theorem step (h : s.Orderly) (hs : Step s s') : s'.Orderly := by
  cases hs with
  | works w hs => exact h.works hs
  | calls x hs => exact h.calls hs

end Orderly

theorem Reachable.orderly (h : Reachable s) : s.Orderly := by
  induction h with
  | refl => exact .new
  | tail _ hs ih => exact ih.step hs

theorem Orderly.length_started (h : s.Orderly) :
    s.started.length + s.pool.queue.length = s.pushed.length := by
  rw [← List.length_append, h.order, List.length_map]

theorem Orderly.completed_of_gone (h : s.Orderly) (hgone : ∀ w, s.workers w = .gone) :
    s.pool.completed = s.started.length ∧
      s.pending = s.pool.queue.length + tally Errand.unpushed s.errands := by
  have hload : tally Worker.load s.workers = 0 := tally_eq_zero fun w => by rw [hgone]; rfl
  have hunbegun : tally Worker.unbegun s.workers = 0 := tally_eq_zero fun w => by rw [hgone]; rfl
  have hbusy := h.busy
  have hcompleted := h.completed
  have hpending := h.pending
  omega

end Workshop

end OpFlow
