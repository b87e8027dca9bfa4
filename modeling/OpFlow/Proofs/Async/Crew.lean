import OpFlow.Proofs.Async.Upkeep
import Mathlib.Logic.Relation

/-!
Threads that work on one network. Each does its pieces one after the other, with all that each sets
off before the next; the threads take turns in any order. What they do to the cells goes into a log.
-/
namespace OpFlow.Async

variable {α : Type}

/-- What a thread is to do next. -/
inductive Piece (α : Type)
  | job (job : Job α)
  /-- A continuation that is to run. -/
  | waiter (waiter : Ticketed α)
  /-- Whoever has settled a cell, and run what waited for it, is to go on. -/
  | back (cell : Nat)

def Piece.job? : Piece α → Option (Job α)
  | job j => some j
  | waiter w => some w.2
  | back _ => none

def Event.settled? : Event α → Option Nat
  | settled c _ => some c
  | made _ _ | registered _ _ | ran _ | returned _ => none

structure Deal (α : Type) where
  network : NetworkOf α (Ticketed α)
  /-- What the thread is to do before anything else. -/
  begun : List (Piece α)
  notes : List (Event α)

/-- Does a piece; what is registered gets the number `t`. A step is followed by the waiters that it has
woken, by the returns from what it has settled, and by what it has begun. -/
def Piece.deal (n : NetworkOf α (Ticketed α)) (t : Nat) : Piece α → Deal α
  | job j =>
    let turn := n.step (Prod.mk t) j
    let notes := n.notes t j
    { network := turn.network
      begun := turn.woken.map .waiter ++ (notes.filterMap Event.settled?).map .back ++
        turn.next.map .job
      notes }
  | waiter w => { network := n, begun := [.job w.2], notes := [.ran w.1] }
  | back c => { network := n, begun := [], notes := [.returned c] }

/-- A network with threads. Events are logged with the number of the thread. -/
structure Crew (α : Type) where
  network : NetworkOf α (Ticketed α) := {}
  threads : List (List (Piece α)) := []
  log : List (Nat × Event α) :=
    [(0, .made 0 (.settled (.ok .done))), (0, .settled 0 (.ok .done)), (0, .returned 0)]

namespace Crew

open NetworkOf

def agenda (s : Crew α) (i : Nat) : List (Piece α) := s.threads[i]?.getD []

def deal (s : Crew α) (p : Piece α) : Deal α := p.deal s.network s.log.length

/-- A thread does its next piece, if it has one. -/
def act? (s : Crew α) (i : Nat) : Option (Crew α) :=
  match s.agenda i with
  | [] => none
  | p :: rest => some
    { network := (s.deal p).network
      threads := s.threads.set i ((s.deal p).begun ++ rest)
      log := s.log ++ (s.deal p).notes.map (i, ·) }

def enter (s : Crew α) (a : Action α) : Crew α :=
  { s with threads := s.threads ++ [[.job (.act a)]] }

inductive Step (s : Crew α) : Crew α → Prop
  | act {i : Nat} {s' : Crew α} (h : s.act? i = some s') : Step s s'
  | enter (a : Action α) : Step s (s.enter a)

/-- What may come of a crew, however its threads take turns. -/
abbrev Leads : Crew α → Crew α → Prop := Relation.ReflTransGen Step

/-- What may come of a network that nobody has used yet. -/
def Reachable (s : Crew α) : Prop := Leads {} s

variable (s : Crew α)

def result? (c : Nat) : Option (Result α) := s.network.cells.result? c

def events : List (Event α) := s.log.map Prod.snd

def made : Made α := s.events.filterMap Event.made?

def pieces : List (Piece α) := s.threads.flatten

def pool : List (Job α) := s.pieces.filterMap Piece.job?

/-- Everything is in its place, has its owner and is counted. -/
structure Sound : Prop where
  placed : s.network.Placed s.pool
  owned : s.network.Owned s.pool s.made
  counted : s.network.Counted s.pool

/-- Nobody has anything left to do. -/
def Idle : Prop := ∀ i, s.agenda i = []

variable {s} {s' : Crew α} {i : Nat} {p : Piece α}

theorem mem_pieces (hp : p ∈ s.agenda i) : p ∈ s.pieces := by
  unfold agenda at hp
  cases hi : s.threads[i]? with
  | none => simp [hi] at hp
  | some l => exact List.mem_flatten.2 ⟨l, List.mem_of_getElem? hi, by simpa [hi] using hp⟩

theorem agenda_enter (s : Crew α) (a : Action α) (i : Nat) : (s.enter a).agenda i =
    if i = s.threads.length then [.job (.act a)] else s.agenda i :=
  getD_concat ..

theorem agenda_length (s : Crew α) : s.agenda s.threads.length = [] := by simp [agenda]

theorem Idle.pieces (h : s.Idle) : s.pieces = [] := by
  refine List.flatten_eq_nil_iff.2 fun l hl => ?_
  obtain ⟨i, hi⟩ := List.getElem?_of_mem hl
  simpa [agenda, hi] using h i

/-- What comes of a thread's turn. -/
structure Acted (s : Crew α) (i : Nat) (p : Piece α) (rest others : List (Piece α)) (s' : Crew α) :
    Prop where
  network : s'.network = (s.deal p).network
  log : s'.log = s.log ++ (s.deal p).notes.map (i, ·)
  before : s.agenda i = p :: rest
  after : s'.agenda i = (s.deal p).begun ++ rest
  elsewhere : ∀ k, k ≠ i → s'.agenda k = s.agenda k
  pieces : s.pieces.Perm (p :: others)
  pieces' : s'.pieces.Perm ((s.deal p).begun ++ others)

theorem acted (h : s.act? i = some s') : ∃ p rest others, s.Acted i p rest others s' := by
  unfold act? at h
  split at h
  · cases h
  · next p rest hagenda =>
    obtain rfl := Option.some.inj h
    have hi : s.threads[i]? = some (p :: rest) := by
      unfold agenda at hagenda
      cases hi : s.threads[i]? with
      | none => simp [hi] at hagenda
      | some l => simpa [hi] using hagenda
    obtain ⟨others, hpieces, hset⟩ := exists_flatMap_perm id hi
    rw [List.flatMap_id] at hpieces
    refine ⟨p, rest, rest ++ others, rfl, rfl, hagenda, ?_, fun k hk => ?_, hpieces, ?_⟩
    · simp [agenda, (List.getElem?_eq_some_iff.1 hi).1]
    · simp [agenda, Ne.symm hk]
    · have := hset ((s.deal p).begun ++ rest)
      rwa [List.flatMap_id, id, List.append_assoc] at this

namespace Acted

variable {rest others : List (Piece α)} (h : s.Acted i p rest others s')
include h

theorem pool : s.pool.Perm (p.job?.toList ++ others.filterMap Piece.job?) := by
  refine (h.pieces.filterMap Piece.job?).trans (.of_eq ?_)
  cases hp : p.job? <;> simp [hp]

theorem pool' : s'.pool.Perm ((s.deal p).begun.filterMap Piece.job? ++ others.filterMap Piece.job?) :=
  (h.pieces'.filterMap Piece.job?).trans (.of_eq (List.filterMap_append ..))

theorem events : s'.events = s.events ++ (s.deal p).notes := by
  rw [Crew.events, h.log, List.map_append, List.map_map]
  exact congrArg (_ ++ ·) (List.map_id _)

theorem made : s'.made = s.made ++ (s.deal p).notes.filterMap Event.made? := by
  rw [Crew.made, h.events, List.filterMap_append, Crew.made]

end Acted

/-- The jobs that a step leaves to its thread. -/
theorem filterMap_begun (j : Job α) : (s.deal (.job j)).begun.filterMap Piece.job? =
    (s.network.step (Prod.mk s.log.length) j).woken.map Prod.snd ++
      (s.network.step (Prod.mk s.log.length) j).next := by
  have hback : ∀ cells : List Nat, (cells.map Piece.back : List (Piece α)).filterMap Piece.job? = [] :=
    fun cells => List.filterMap_eq_nil_iff.2 fun p hp => by
      obtain ⟨c, -, rfl⟩ := List.mem_map.1 hp
      rfl
  have hwoken : ∀ woken : List (Ticketed α),
      (woken.map Piece.waiter).filterMap Piece.job? = woken.map Prod.snd := fun woken => by
    rw [List.filterMap_map]
    exact List.filterMap_eq_map (f := Prod.snd) ▸ rfl
  have hnext : ∀ next : List (Job α), (next.map Piece.job).filterMap Piece.job? = next := fun next => by
    rw [List.filterMap_map]
    exact List.filterMap_some
  simp only [deal, Piece.deal, List.filterMap_append, hback, hwoken, hnext, List.append_nil]

namespace Sound

/-- Only the cell that has been done from the start is there. -/
theorem init : ({} : Crew α).Sound := by
  have hcells : ∀ c, ({} : NetworkOf α (Ticketed α)).cells.result? c =
      if c = 0 then some (.ok .done) else none := fun c => by
    cases c <;> rfl
  have hwaiters : ∀ c, ({} : NetworkOf α (Ticketed α)).cells.waiters c = [] := fun c => by
    cases c <;> rfl
  have hpending : ∀ c, ¬ ({} : NetworkOf α (Ticketed α)).cells.IsPending c := fun c h => by
    obtain rfl : c = 0 := Nat.lt_one_iff.1 h.1
    cases h.2
  refine ⟨⟨rfl, fun c _ => hwaiters c, ?_, by simp, by simp, ?_, by simp [pool, pieces], ?_⟩,
    ⟨?_, ?_, ?_, ?_⟩,
    ⟨fun _ => rfl, fun _ c hc => absurd hc (hpending c)⟩⟩
  · rintro c ⟨source, hc⟩
    cases source <;> simp [cellOf?] at hc
  · intro i c hc
    cases hc
  · intro c w hw
    rw [hwaiters] at hw
    cases hw
  · intro c
    rw [if_neg (hpending c)]
    rfl
  · intro c o o' ho
    cases ho
  · intro c o hc
    obtain ⟨rfl, -⟩ := Prod.mk.inj (List.mem_singleton.1 hc)
    exact Nat.lt_one_iff.2 rfl
  · intro c o r hmem hc
    obtain ⟨rfl, rfl⟩ := Prod.mk.inj (List.mem_singleton.1 hmem)
    exact .inr hc

theorem same (h : s.Sound) (hnetwork : s'.network = s.network) (hpool : s'.pool.Perm s.pool)
    (hmade : s'.made = s.made) : s'.Sound := by
  refine ⟨?_, ?_, ?_⟩
  · rw [hnetwork]; exact h.placed.perm hpool
  · rw [hnetwork, hmade]; exact h.owned.perm hpool
  · rw [hnetwork]; exact h.counted.perm hpool

theorem enter (h : s.Sound) (a : Action α) : (s.enter a).Sound := by
  have hpool : (s.enter a).pool.Perm ([a].map .act ++ s.pool) := by
    simp only [Crew.enter, pool, pieces, List.flatten_append, List.filterMap_append]
    exact List.perm_append_comm
  refine ⟨(h.placed.todo fun k hk => ?_).perm hpool, (h.owned.of_work (.of_eq ?_)).perm hpool,
    (h.counted.todo (.of_eq ?_) (.of_eq ?_)).perm hpool⟩
  · rcases List.mem_cons.1 hk with rfl | hk
    · trivial
    · exact h.placed.runs k hk
  · rw [work, work, List.append_assoc]
    exact filterMap_acts (fun _ => rfl) [a] _
  · exact filterMap_acts (fun _ => rfl) [a] _
  · exact filterMap_acts (fun _ => rfl) [a] _

theorem act (h : s.Sound) (hs : s.act? i = some s') : s'.Sound := by
  obtain ⟨p, rest, others, hacted⟩ := acted hs
  cases p with
  | waiter w =>
    exact h.same hacted.network (hacted.pool'.trans hacted.pool.symm)
      (hacted.made.trans (by simp [deal, Piece.deal, Event.made?]))
  | back c =>
    exact h.same hacted.network (hacted.pool'.trans hacted.pool.symm)
      (hacted.made.trans (by simp [deal, Piece.deal, Event.made?]))
  | job j =>
    have hbefore := hacted.pool.symm
    have hp := h.placed.perm hbefore
    have hc := h.counted.perm hbefore
    have hd := deed (n := s.network) (Prod.mk s.log.length) s.log.length j
    have hafter := hacted.pool'
    rw [filterMap_begun] at hafter
    refine ⟨?_, ?_, ?_⟩
    · rw [hacted.network]
      exact (hd.keeps_placed hp hc).perm hafter
    · rw [hacted.network, hacted.made]
      exact (hd.keeps_owned hp (h.owned.perm hbefore)).perm hafter
    · rw [hacted.network]
      exact (hd.keeps_counted hp hc).perm hafter

theorem pending_of_waits (h : s.Sound) {w : Ticketed α} (hw : w ∈ s.network.cells.waiters c) :
    s.network.cells.IsPending c := by
  refine ⟨?_, ?_⟩
  · by_contra hlt
    rw [Cells.waiters_of_size_le (Nat.le_of_not_lt hlt)] at hw
    cases hw
  · by_contra hsettled
    rw [h.placed.quiet c (Option.isSome_iff_ne_none.2 hsettled)] at hw
    cases hw

end Sound

/-- What comes of the given turns; who has nothing to do lets its turn pass. -/
def after (s : Crew α) (turns : List Nat) : Crew α := turns.foldl (fun s i => (s.act? i).getD s) s

theorem leads_after (s : Crew α) (turns : List Nat) : Leads s (s.after turns) := by
  induction turns generalizing s with
  | nil => exact .refl
  | cons i turns ih =>
    have hstep : Leads s ((s.act? i).getD s) := by
      cases h : s.act? i with
      | none => exact .refl
      | some s' => exact .single (.act h)
    exact hstep.trans (ih _)

theorem Reachable.leads (hs : s.Reachable) (hl : Leads s s') : s'.Reachable := hs.trans hl

theorem Reachable.sound (hs : s.Reachable) : s.Sound := by
  induction hs with
  | refl => exact .init
  | tail _ hstep ih =>
    cases hstep with
    | act h => exact ih.act h
    | enter a => exact ih.enter a

end Crew

end OpFlow.Async
