import OpFlow.Proofs.Async.Crew
import Mathlib.Order.Basic

/-!
Every step uses up a part of the work, so threads come to an end, however they take turns.
-/
namespace OpFlow.Async

variable {α : Type}

theorem Action.size_pos (a : Action α) : 0 < a.size := by
  cases a <;> simp [Action.size]

theorem Job.size_pos (k : Job α) : 0 < k.size := by
  cases k <;> simp [Job.size, Action.size_pos]

@[simp] theorem sizes_nil : sizes ([] : List (Job α)) = 0 := rfl

@[simp] theorem sizes_cons (k : Job α) (jobs : List (Job α)) :
    sizes (k :: jobs) = k.size + sizes jobs := rfl

@[simp] theorem sizes_append (jobs others : List (Job α)) :
    sizes (jobs ++ others) = sizes jobs + sizes others := by
  induction jobs with
  | nil => exact (Nat.zero_add _).symm
  | cons k jobs ih => rw [List.cons_append, sizes_cons, sizes_cons, ih, Nat.add_assoc]

theorem sizes_perm {jobs others : List (Job α)} (h : jobs.Perm others) : sizes jobs = sizes others := by
  induction h with
  | nil => rfl
  | cons k _ ih => rw [sizes_cons, sizes_cons, ih]
  | swap k l jobs => exact Nat.add_left_comm ..
  | trans _ _ ih ih' => exact ih.trans ih'

theorem sizes_acts (actions : List (Action α)) : sizes (actions.map .act) = sizeOfAll actions := by
  induction actions with
  | nil => simp [sizeOfAll]
  | cons a as ih => simp [sizeOfAll, Job.size, ih]

namespace NetworkOf

variable {n : NetworkOf α (Ticketed α)} {others : List (Job α)} {c t : Nat} {j k : Job α}
  {turn : Turn α (Ticketed α)} {notes : List (Event α)}

theorem sizes_work_perm (n : NetworkOf α (Ticketed α)) {jobs others : List (Job α)}
    (h : jobs.Perm others) : sizes (n.work jobs) = sizes (n.work others) :=
  sizes_perm (h.append_right _)

theorem size_of_registers (h : n.Registers j c k) : j.size = k.size + 1 := by
  rcases h with rfl | ⟨h, next, rfl, ⟨rfl, -⟩ | ⟨rfl, -⟩⟩ <;> rfl

theorem sizes_countDowns (inputs : List Nat) (i : Nat) :
    sizes (countDowns inputs i : List (Job α)) = 3 * inputs.length := by
  induction inputs with
  | nil => rfl
  | cons c cs ih =>
    rw [countDowns, List.map_cons, sizes_cons, ← countDowns, ih]
    simp only [Job.size, List.length_cons]
    omega

/-- A step leaves less to be done than there was. -/
theorem Deed.sizes_lt (hd : n.Deed (Prod.mk t) t j turn notes) (hp : n.Placed (j :: others)) :
    sizes (turn.network.work (turn.free others)) < sizes (n.work (j :: others)) := by
  have hj : sizes (n.work (j :: others)) = j.size + sizes (n.work others) := by
    rw [work, List.cons_append, sizes_cons, work]
  have hdone : sizes (n.work others) < sizes (n.work (j :: others)) := by
    have := j.size_pos
    omega
  have hcell : ∀ x, sizes ((n.withCell x).work others) = sizes (n.work others) := fun x => by
    rw [work, withCell, Cells.allWaiters_add, work]
  cases hd with
  | idle | noted | stuck | uncounted | trivial => exact hdone
  | shared _ hn => rwa [work, hn.cells]
  | made hn =>
    rw [work, hn.cells]
    exact (hcell _).trans_lt hdone
  | promised => exact (hcell none).trans_lt hdone
  | split =>
    rw [hj, work, Turn.free, List.append_assoc]
    simp only [List.map_nil, List.nil_append, sizes_append, sizes_acts, Job.size, Action.size, work]
    omega
  | registered hr =>
    rw [hj, size_of_registers hr]
    exact (sizes_perm (work_register (lt_of_registers hp hr) _ others)).trans_lt (by
      rw [sizes_cons]
      omega)
  | atOnce hr =>
    rw [hj, size_of_registers hr]
    simp only [Turn.free, List.map_cons, List.map_nil, List.append_nil, List.cons_append,
      List.nil_append, work, sizes_cons]
    omega
  | derived =>
    rw [hj, ← hcell none]
    simp only [Turn.free, List.map_nil, List.cons_append, List.nil_append, work, sizes_cons, Job.size,
      Action.size, named]
    omega
  | @joined sources inputs hlength =>
    rw [hj, ← hcell none]
    have hcounts := sizes_countDowns (α := α) inputs n.joins.size
    simp only [countDowns] at hcounts
    simp only [Turn.free, List.map_nil, List.nil_append, work, sizes_append, hcounts, Job.size,
      Action.size, namedEvent]
    omega
  | kept =>
    exact (sizes_perm (work_settleCell (n := { n with promises := _ }) _ _ others)).trans_lt hdone
  | fired | completed => exact (sizes_perm (work_settleCell _ _ others)).trans_lt hdone
  | @counted i join =>
    rw [hj]
    simp only [Turn.free, List.map_nil, List.nil_append, work, sizes_append, Job.size]
    split
    · simp only [sizes_cons, sizes_nil, Job.size]
      omega
    · simp only [sizes_nil]
      omega

/-- A step wakes what waited, or adds at most one to those that wait, or settles a cell. -/
theorem Deed.due_le (hd : n.Deed (Prod.mk t) t j turn notes) (hp : n.Placed (j :: others)) :
    turn.woken.length + turn.network.cells.allWaiters.length +
      (notes.filterMap Event.settled?).length ≤ n.cells.allWaiters.length + 1 := by
  have hsettle : ∀ c r, (n.settleCell c r).woken.length +
      (n.settleCell c r).network.cells.allWaiters.length = n.cells.allWaiters.length := fun c r => by
    rw [← (Cells.perm_allWaiters_settle n.cells c r).length_eq, List.length_append]
    rfl
  cases hd with
  | idle | noted | stuck | uncounted | split | counted => simp [note]
  | trivial => simp [namedEvent, List.filterMap_cons, Event.settled?]
  | shared _ hn => simp [hn.cells]
  | made hn => simp [hn.cells, withCell, List.filterMap_cons, Event.settled?]
  | promised | derived | joined =>
    simp [withCell, named, namedEvent, List.filterMap_cons, Event.settled?]
  | @registered _ k c hr =>
    have hlength := (Cells.perm_allWaiters_register n.cells (lt_of_registers hp hr) (t, k)).length_eq
    simp [List.filterMap_cons, Event.settled?, hlength]
  | atOnce =>
    simp only [List.length_singleton, List.filterMap_cons, Event.settled?, List.filterMap_nil,
      List.length_nil]
    omega
  | kept => exact Nat.add_le_add_right (Nat.le_of_eq (hsettle _ _)) 1
  | fired | completed => exact Nat.add_le_add_right (Nat.le_of_eq (hsettle _ _)) 1

end NetworkOf

def Piece.isDue : Piece α → Bool
  | job _ => false
  | waiter _ | back _ => true

namespace Crew

open NetworkOf

variable {s s' : Crew α} {i : Nat}

/-- What is left to be done by all threads, and by what waits. -/
def load (s : Crew α) : Nat :=
  3 * sizes (s.network.work s.pool) + s.pieces.countP Piece.isDue + s.network.cells.allWaiters.length

theorem countP_begun (j : Job α) : (s.deal (.job j)).begun.countP Piece.isDue =
    (s.network.step (Prod.mk s.log.length) j).woken.length +
      ((s.network.notes s.log.length j).filterMap Event.settled?).length := by
  have hwoken : ∀ woken : List (Ticketed α), (woken.map Piece.waiter).countP Piece.isDue = woken.length :=
    fun woken => by
      rw [List.countP_map]
      exact List.countP_eq_length.2 fun _ _ => rfl
  have hback : ∀ cells : List Nat,
      (cells.map Piece.back : List (Piece α)).countP Piece.isDue = cells.length := fun cells => by
    rw [List.countP_map]
    exact List.countP_eq_length.2 fun _ _ => rfl
  have hnext : ∀ next : List (Job α), (next.map Piece.job).countP Piece.isDue = 0 := fun next => by
    rw [List.countP_map]
    exact List.countP_eq_zero.2 fun _ _ => Bool.false_ne_true
  simp only [deal, Piece.deal, List.countP_append, hwoken, hback, hnext, Nat.add_zero]

/-- Whatever a thread does, less is left. -/
theorem load_act (h : s.Sound) (hs : s.act? i = some s') : s'.load < s.load := by
  obtain ⟨p, rest, others, hacted⟩ := acted hs
  have hdue := hacted.pieces.countP_eq Piece.isDue
  have hdue' := hacted.pieces'.countP_eq Piece.isDue
  rw [List.countP_append] at hdue'
  rw [load, load, sizes_work_perm _ hacted.pool, sizes_work_perm _ hacted.pool', hdue, hdue',
    hacted.network]
  cases p with
  | waiter w =>
    simp [deal, Piece.deal, Piece.job?, List.countP_cons, Piece.isDue]
  | back c =>
    simp [deal, Piece.deal, Piece.job?, List.countP_cons, Piece.isDue]
  | job j =>
    have hp : s.network.Placed (j :: others.filterMap Piece.job?) :=
      h.placed.perm hacted.pool.symm
    have hd := deed (n := s.network) (Prod.mk s.log.length) s.log.length j
    have hsizes := hd.sizes_lt hp
    have hwaiting := hd.due_le hp
    rw [countP_begun, filterMap_begun]
    simp only [deal, Piece.deal, Piece.job?, Option.toList, Turn.free, List.countP_cons,
      Piece.isDue, Bool.false_eq_true, if_false, Nat.add_zero, List.cons_append,
      List.nil_append] at hsizes hwaiting ⊢
    omega

end Crew

end OpFlow.Async
