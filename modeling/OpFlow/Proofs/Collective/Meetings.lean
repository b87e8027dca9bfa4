import Mathlib.Logic.Function.Basic
import OpFlow.Collective.Meeting
import OpFlow.Collective.Transport

/-!
Interleavings at a transport. Participants of many exchanges call one transport, from many threads
and in any order, and every kind of exchange has a rendezvous of its own. The meetings at these make
up a transport in the midst of such calls: one for each kind. What a move does to the transport is
what the transport's own function for it does.
-/
namespace OpFlow

variable {κ : Type}

structure Meetings (κ : Type) where
  meeting : ExchangeKind → Meeting (List Bytes) κ

namespace Meetings

inductive Move (κ : Type)
  /-- A participant joins an exchange. -/
  | call (e : Exchange) (key : RendezvousKey) (rank : Nat) (blocks : List Bytes)
  /-- The clock of a group runs out, whether or not the group still waits. -/
  | fire (x : Expiry)
  /-- The `i`th promise that is due at the rendezvous of this kind is kept. -/
  | keep (kind : ExchangeKind) (i : Nat)
  | wait (kind : ExchangeKind) (cell : Nat) (w : κ)

/-- Which rendezvous a move concerns, and what it is there. An all-to-all with a wrong number of
blocks is refused before it gets to any. -/
def Move.place? : Move κ → Option (ExchangeKind × Meeting.Move (List Bytes) κ)
  | call e key rank blocks =>
    if e.kind = .allToAll ∧ blocks.length ≠ key.size then none
    else some (e.kind, .arrive key rank blocks)
  | fire x => some (x.kind, .fire x.key x.cell)
  | keep kind i => some (kind, .keep i)
  | wait kind cell w => some (kind, .wait cell w)

def step (t : Meetings κ) (move : Move κ) : Meetings κ :=
  match move.place? with
  | some (kind, m) => { meeting := Function.update t.meeting kind ((t.meeting kind).step m) }
  | none => t

def run (t : Meetings κ) (moves : List (Move κ)) : Meetings κ := moves.foldl step t

def start (timeout : Nat) : Meetings κ :=
  { meeting := fun kind => { desk := (Transport.ofTimeout timeout).get kind } }

/-- The transport at which the meetings are. -/
def transport (t : Meetings κ) : Transport κ where
  allReduce := (t.meeting .allReduce).desk
  allGather := (t.meeting .allGather).desk
  reduceScatter := (t.meeting .reduceScatter).desk
  allToAll := (t.meeting .allToAll).desk
  permute := (t.meeting .permute).desk

@[simp] theorem get_transport (t : Meetings κ) (kind : ExchangeKind) :
    t.transport.get kind = (t.meeting kind).desk := by cases kind <;> rfl

theorem transport_update (t : Meetings κ) (kind : ExchangeKind) (m : Meeting (List Bytes) κ) :
    ({ meeting := Function.update t.meeting kind m } : Meetings κ).transport =
      t.transport.set kind m.desk := by
  cases kind <;> rfl

theorem transport_call (t : Meetings κ) (e : Exchange) (key : RendezvousKey) (rank : Nat)
    (blocks : List Bytes) :
    (t.step (.call e key rank blocks)).transport = (t.transport.enter e key rank blocks).1 := by
  simp only [step, Move.place?, Transport.enter]
  split
  · next h =>
    split at h
    · cases h
    · next hfits =>
      simp only [Option.some.injEq, Prod.mk.injEq] at h
      obtain ⟨rfl, rfl⟩ := h
      rw [if_neg hfits, transport_update, get_transport]
      rfl
  · next h =>
    split at h
    · next hrefused => rw [if_pos hrefused]
    · cases h

theorem transport_keep (t : Meetings κ) {kind : ExchangeKind} {i cell : Nat}
    {values : List (List Bytes)} (h : (t.meeting kind).due[i]? = some (cell, .ok values)) :
    (t.step (.keep kind i)).transport = (t.transport.settle kind cell values).1 := by
  simp only [step, Move.place?, transport_update, Transport.settle, get_transport, Meeting.step, h]

theorem transport_wait (t : Meetings κ) (kind : ExchangeKind) (cell : Nat) (w : κ) :
    (t.step (.wait kind cell w)).transport = t.transport.register kind cell w := by
  simp only [step, Move.place?, transport_update, Transport.register, get_transport, Meeting.step]

theorem transport_expire (t : Meetings κ) (x : Expiry) (h : (t.meeting x.kind).due = []) :
    ((t.step (.fire x)).step (.keep x.kind 0)).transport = (t.transport.expire x).1 := by
  have hdesk := (t.meeting x.kind).desk_expire x.key x.cell h
  simp only [step, Move.place?, Function.update_self, Function.update_idem, transport_update,
    Transport.expire, get_transport, hdesk]

def Move.at? (kind : ExchangeKind) (move : Move κ) : Option (Meeting.Move (List Bytes) κ) :=
  match move.place? with
  | some (k, m) => if k = kind then some m else none
  | none => none

theorem Move.at?_call (kind : ExchangeKind) (e : Exchange) {key : RendezvousKey} (rank : Nat)
    {blocks : List Bytes} (h : e.kind = .allToAll → blocks.length = key.size) :
    (call e key rank blocks : Move κ).at? kind =
      if e.kind = kind then some (.arrive key rank blocks) else none := by
  rw [at?, place?, if_neg fun hrefused => hrefused.2 (h hrefused.1)]

theorem Move.at?_call_refused (kind : ExchangeKind) {e : Exchange} {key : RendezvousKey}
    (rank : Nat) {blocks : List Bytes} (he : e.kind = .allToAll) (h : blocks.length ≠ key.size) :
    (call e key rank blocks : Move κ).at? kind = none := by
  rw [at?, place?, if_pos ⟨he, h⟩]

theorem meeting_step (t : Meetings κ) (kind : ExchangeKind) (move : Move κ) :
    (t.step move).meeting kind = (t.meeting kind).run (move.at? kind).toList := by
  rw [step, Move.at?]
  rcases move.place? with _ | ⟨k, m⟩
  · rfl
  · by_cases hk : k = kind
    · subst hk
      simp [Meeting.run]
    · simp [hk, Function.update_of_ne (Ne.symm hk), Meeting.run]

theorem meeting_run (t : Meetings κ) (kind : ExchangeKind) (moves : List (Move κ)) :
    (t.run moves).meeting kind = (t.meeting kind).run (moves.filterMap (Move.at? kind)) := by
  induction moves generalizing t with
  | nil => rfl
  | cons move moves ih =>
    rw [show t.run (move :: moves) = (t.step move).run moves from rfl, ih, meeting_step,
      List.filterMap_cons]
    cases move.at? kind <;> rfl

theorem meeting_start (timeout : Nat) (kind : ExchangeKind) :
    (start timeout : Meetings κ).meeting kind =
      Meeting.start ((Transport.ofTimeout timeout : Transport κ).get kind).name timeout := by
  cases kind <;> rfl

end Meetings

end OpFlow
