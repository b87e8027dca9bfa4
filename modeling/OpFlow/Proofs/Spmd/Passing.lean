import OpFlow.Proofs.Machine.Scene
import OpFlow.Proofs.Spmd.Delivery

/-!
Who settles a call. Every effect that has to do with exchanges is about certain calls, which it will
settle, and so is every participant who waits for an exchange. Carrying out such an effect passes its
calls on to other effects and participants, so that none is forgotten and none is settled twice.
-/
namespace OpFlow

open Machine (CallKey Effect)

namespace Rendezvous

variable {V κ : Type} {r : Rendezvous V κ}

/-- The groups that wait have their cells. -/
def Sized (r : Rendezvous V κ) : Prop := ∀ k g, r.group? k = some g → g.cell < r.cells.size

theorem Sized.groupFor (h : r.Sized) (k : RendezvousKey) :
    (r.groupFor k).1.Sized ∧ r.cells.size ≤ (r.groupFor k).1.cells.size ∧
      (r.groupFor k).2.cell < (r.groupFor k).1.cells.size := by
  cases hg : r.group? k with
  | some g =>
    rw [groupFor_of_some hg]
    exact ⟨h, Nat.le_refl _, h k g hg⟩
  | none =>
    rw [groupFor_of_none hg]
    refine ⟨fun j g hj => ?_, ?_, ?_⟩
    · have := h j g hj
      simp only [Cells.size_fresh]
      omega
    · simp
    · simp [RendezvousGroup.empty]

theorem Sized.leave (h : r.Sized) (k : RendezvousKey) {g : RendezvousGroup V}
    (hg : g.cell < r.cells.size) (isNew : Bool) :
    (r.leave k g isNew).1.Sized ∧ (r.leave k g isNew).1.cells = r.cells ∧
      (r.leave k g isNew).2.answer = .ok g.cell := by
  unfold Rendezvous.leave
  split
  · refine ⟨fun j g' hj => ?_, rfl, rfl⟩
    by_cases hkj : k = j
    · subst hkj
      rw [group?_store_self] at hj
      exact Option.some.inj hj ▸ hg
    · exact h j g' (by rwa [group?_store_of_ne r hkj] at hj)
  · refine ⟨fun j g' hj => ?_, rfl, rfl⟩
    by_cases hkj : k = j
    · subst hkj
      rw [group?_forget_self] at hj
      cases hj
    · exact h j g' (by rwa [group?_forget_of_ne r hkj] at hj)

/-- Whoever enters is handed a cell that there is. -/
theorem Sized.enter (h : r.Sized) (k : RendezvousKey) (rank : Nat) (value : V) :
    (r.enter k rank value).1.Sized ∧ r.cells.size ≤ (r.enter k rank value).1.cells.size ∧
      ∀ c, (r.enter k rank value).2.answer = .ok c → c < (r.enter k rank value).1.cells.size := by
  obtain ⟨hfor, hsize, hcell⟩ := h.groupFor k
  unfold Rendezvous.enter
  split
  · exact ⟨h, Nat.le_refl _, by simp [Entrance.answer]⟩
  · dsimp only
    split
    · exact ⟨hfor, hsize, by simp [Entrance.answer]⟩
    · obtain ⟨hleave, hcells, hanswer⟩ := hfor.leave k
        (g := (r.groupFor k).2.add rank value) hcell (r.group? k).isNone
      refine ⟨hleave, by rwa [hcells], fun c hc => ?_⟩
      rw [hanswer] at hc
      cases hc
      rwa [hcells]

end Rendezvous

namespace ExchangeKind

def all : List ExchangeKind := [allReduce, allGather, reduceScatter, allToAll, permute]

/-- Where a kind stands among all. -/
def index : ExchangeKind → Nat
  | allReduce => 0
  | allGather => 1
  | reduceScatter => 2
  | allToAll => 3
  | permute => 4

end ExchangeKind

namespace Transport

variable {κ : Type}

def waiting (t : Transport κ) : List κ :=
  (ExchangeKind.all.map t.get).flatMap fun r => r.cells.allWaiters

theorem map_get_set (t : Transport κ) (k : ExchangeKind) (r : Rendezvous (List Bytes) κ) :
    ExchangeKind.all.map (t.set k r).get = (ExchangeKind.all.map t.get).set k.index r := by
  cases k <;> rfl

theorem get_all (t : Transport κ) (k : ExchangeKind) :
    (ExchangeKind.all.map t.get)[k.index]? = some (t.get k) := by
  cases k <;> rfl

theorem exists_waiting_perm (t : Transport κ) (k : ExchangeKind) :
    ∃ rest, t.waiting.Perm ((t.get k).cells.allWaiters ++ rest) ∧
      ∀ r, (t.set k r).waiting.Perm (r.cells.allWaiters ++ rest) := by
  obtain ⟨rest, hold, hnew⟩ :=
    exists_flatMap_perm (fun r : Rendezvous (List Bytes) κ => r.cells.allWaiters)
      (t.get_all k)
  refine ⟨rest, hold, fun r => ?_⟩
  rw [waiting, map_get_set]
  exact hnew r

theorem mem_waiting {t : Transport κ} {w : κ} :
    w ∈ t.waiting ↔ ∃ k, w ∈ (t.get k).cells.allWaiters := by
  simp only [waiting, List.mem_flatMap, List.mem_map]
  constructor
  · rintro ⟨r, ⟨k, -, rfl⟩, hw⟩
    exact ⟨k, hw⟩
  · rintro ⟨k, hw⟩
    exact ⟨_, ⟨k, by cases k <;> simp [ExchangeKind.all], rfl⟩, hw⟩

end Transport

def Work.participants : Work → List Participant
  | .attend t | .resolve _ t => [t]
  | .handOut ts => ts
  | .thread _ _ => []

def Work.calls (w : Work) : List CallKey := w.participants.map Participant.call

def Effect.calls : Effect Work → List CallKey
  | .settle c _ => [c]
  | .work w | .submit _ w => w.calls

def Effect.IsExchange : Effect Work → Prop
  | .settle _ _ | .work (.attend _) | .work (.resolve _ _) | .work (.handOut _) => True
  | .work (.thread _ _) | .submit _ _ => False

namespace Platform

def awaiting (p : Platform) : List CallKey := p.transport.waiting.map Participant.call

/-- These calls were to be settled; now effects or waiting participants are going to settle them. -/
def Passes (p : Platform) (calls : List CallKey) (p' : Platform) (effects : List (Effect Work)) :
    Prop :=
  (effects.flatMap Effect.calls ++ p'.awaiting).Perm (calls ++ p.awaiting)

theorem calls_handedOut (t : Participant) (rest : List Participant) (r : Except Fault Unit) :
    (handedOut t rest r).flatMap Effect.calls = (t :: rest).map Participant.call := by
  have habandoned : ∀ text (ts : List Participant),
      (abandoned text ts).flatMap Effect.calls = ts.map Participant.call := fun text ts => by
    induction ts with
    | nil => rfl
    | cons t ts ih =>
      cases ts with
      | nil => rfl
      | cons t' ts => rw [abandoned, List.flatMap_cons, ih] <;> simp [Effect.calls]
  rcases r with (e | text) | _
  · simp [handedOut, Effect.calls, Work.calls, Work.participants]
  · exact habandoned text (t :: rest)
  · simp [handedOut, Effect.calls, Work.calls, Work.participants]

theorem handOut_passes (p : Platform) (ts : List Participant) :
    p.Passes (ts.map Participant.call) (p.handOut ts).1 (p.handOut ts).2 := by
  cases ts with
  | nil => exact .refl _
  | cons t rest =>
    rw [handOut_cons, Passes, calls_handedOut]
    exact .refl _

theorem attend_passes (p : Platform) {t : Participant}
    (ht : t.cell < (p.transport.get t.exchange.kind).cells.size) :
    p.Passes [t.call] (p.attend t).1 (p.attend t).2 := by
  cases h : p.transport.contributions? t.exchange.kind t.cell with
  | some r =>
    rw [attend_of_settled p h]
    exact p.handOut_passes [t]
  | none =>
    rw [attend_of_pending p h]
    obtain ⟨rest, hold, hnew⟩ := p.transport.exists_waiting_perm t.exchange.kind
    have hset := hnew ((p.transport.get t.exchange.kind).register t.cell t)
    have hregister := Cells.perm_allWaiters_register _ ht t
    have hwaiting : (p.transport.register t.exchange.kind t.cell t).waiting.Perm
        (t :: p.transport.waiting) :=
      hset.trans ((hregister.append_right rest).trans (hold.symm.cons t))
    exact hwaiting.map Participant.call

theorem resolve_passes (p : Platform) (values : List (List Bytes)) (t : Participant) :
    p.Passes [t.call] (p.resolve values t).1 (p.resolve values t).2 := by
  obtain ⟨rest, hold, hnew⟩ := p.transport.exists_waiting_perm t.exchange.kind
  have hset := hnew ((p.transport.get t.exchange.kind).settle t.cell (.ok values)).1
  have hsettle := Cells.perm_allWaiters_settle (p.transport.get t.exchange.kind).cells t.cell
    (.ok values)
  have hwaiting : ((p.transport.settle t.exchange.kind t.cell values).2 ++
      (p.transport.settle t.exchange.kind t.cell values).1.waiting).Perm p.transport.waiting := by
    refine (hset.append_left _).trans ?_
    rw [← List.append_assoc]
    exact (hsettle.append_right rest).trans hold.symm
  have hcalls : ((p.resolve values t).2.flatMap Effect.calls) =
      (p.transport.settle t.exchange.kind t.cell values).2.map Participant.call ++ [t.call] := by
    simp [resolve, Effect.calls, Work.calls, Work.participants]
  rw [Passes, hcalls, List.append_assoc]
  have hmap := hwaiting.map Participant.call
  rw [List.map_append] at hmap
  exact List.perm_middle.trans (hmap.cons t.call)

/-- Entering an exchange lets nobody wait or go. -/
theorem waiting_enter {κ : Type} (t : Transport κ) (e : Exchange) (key : RendezvousKey) (rank : Nat)
    (blocks : List Bytes) : (t.enter e key rank blocks).1.waiting.Perm t.waiting := by
  have henter : ((t.get e.kind).enter key rank blocks).1.cells.allWaiters =
      (t.get e.kind).cells.allWaiters := by
    have hgroup : ((t.get e.kind).groupFor key).1.cells.allWaiters =
        (t.get e.kind).cells.allWaiters := by
      rcases (t.get e.kind).groupFor_fst key with h | h <;> simp [h]
    have hleave : ∀ (r : Rendezvous (List Bytes) κ) k g isNew,
        (r.leave k g isNew).1.cells = r.cells := fun r k g isNew => by
      unfold Rendezvous.leave
      split <;> rfl
    unfold Rendezvous.enter
    split
    · rfl
    · dsimp only
      split
      · exact hgroup
      · rw [hleave, hgroup]
  unfold Transport.enter
  split
  · exact .refl _
  · obtain ⟨rest, hold, hnew⟩ := t.exists_waiting_perm e.kind
    refine (hnew _).trans ?_
    rw [henter]
    exact hold.symm

theorem launchCollective_passes (p : Platform) (c : CallKey) (info : OpInfo) (op : Collective) :
    p.Passes [c] (p.launchCollective c info op).1
      (Machine.Backend.opening c (p.launchCollective c info op).2) := by
  cases h : p.entry c info op with
  | error e =>
    rw [launchCollective_of_error p h]
    exact .refl _
  | ok e =>
    obtain ⟨timers, heq⟩ := launchCollective_of_ok p h
    rw [heq]
    have hcalls : ∀ entrance : Entrance (List Bytes),
        (joined c e op.destination entrance).flatMap Effect.calls = [c] := fun entrance => by
      rcases entrance with error | ⟨cell, isNew⟩ | ⟨cell, _ | values⟩ <;> rfl
    rw [Passes, Machine.Backend.opening, hcalls]
    exact ((waiting_enter p.transport e.exchange e.key e.rank e.blocks).map
      Participant.call).append_left [c]

open scoped List in
/-- What will settle calls after an effect that has to do with these has been carried out. -/
theorem Passes.perm {p p' : Platform} {calls : List CallKey}
    {effects rest requests : List (Effect Work)} (h : p.Passes calls p' effects)
    (hrequests : requests.Perm (effects ++ rest)) :
    (requests.flatMap Effect.calls ++ p'.awaiting).Perm
      (calls ++ (rest.flatMap Effect.calls ++ p.awaiting)) := by
  have hcalls := hrequests.flatMap_right Effect.calls
  rw [List.flatMap_append] at hcalls
  have hswap : ∀ u v w : List CallKey, (u ++ v ++ w).Perm (v ++ (u ++ w)) := fun u v w => by
    rw [← List.append_assoc]
    exact List.perm_append_comm.append_right w
  calc requests.flatMap Effect.calls ++ p'.awaiting
    _ ~ effects.flatMap Effect.calls ++ rest.flatMap Effect.calls ++ p'.awaiting :=
        hcalls.append_right _
    _ ~ rest.flatMap Effect.calls ++ (effects.flatMap Effect.calls ++ p'.awaiting) := hswap _ _ _
    _ ~ rest.flatMap Effect.calls ++ (calls ++ p.awaiting) := h.append_left _
    _ ~ calls ++ (rest.flatMap Effect.calls ++ p.awaiting) := by
        rw [← List.append_assoc]
        exact hswap _ _ _

def Alike (p p' : Platform) : Prop :=
  ∀ h, p'.host? h = (p.host? h).map fun s => { s with arena := p'.arenaOf h }

variable {p p' p'' : Platform}

theorem Alike.refl (p : Platform) : p.Alike p := fun h => by
  cases hs : p.host? h <;> simp [arenaOf, hs]

theorem Alike.trans (h : p.Alike p') (h' : p'.Alike p'') : p.Alike p'' := fun k => by
  rw [h' k, h k]
  cases p.host? k <;> rfl

theorem Alike.of_hosts (h : p'.hosts = p.hosts) : p.Alike p' := fun k => by
  have hhost : p'.host? k = p.host? k := by rw [host?, host?, h]
  rw [arenaOf, hhost]
  exact Alike.refl p k

theorem alike_setArena (p : Platform) (h : Nat) (a : Arena) : p.Alike (p.setArena h a) := fun k => by
  by_cases hk : h = k
  · subst hk
    cases hs : p.host? h <;> simp [host?_setArena, arenaOf, hs]
  · cases hs : p.host? k <;> simp [host?_setArena, arenaOf, hs, hk]

/-- Going on with an exchange changes nothing but arenas and cells, makes no cells, and asks for no
participant to attend. -/
structure Continues (p p' : Platform) (effects : List (Effect Work)) : Prop where
  alike : p.Alike p'
  groups : ∀ k, (p'.transport.get k).groups = (p.transport.get k).groups
  size : ∀ k, (p'.transport.get k).cells.size = (p.transport.get k).cells.size
  asked : ∀ e ∈ effects, Effect.IsExchange e
  attend : ∀ t, .work (.attend t) ∉ effects

theorem handOut_continues (p : Platform) (ts : List Participant) :
    p.Continues (p.handOut ts).1 (p.handOut ts).2 := by
  cases ts with
  | nil => exact ⟨.refl p, fun _ => rfl, fun _ => rfl, by simp [handOut], by simp [handOut]⟩
  | cons t rest =>
    have habandoned : ∀ text (ts : List Participant), ∀ e ∈ abandoned text ts,
        ∃ c o, e = .settle c o := fun text ts => by
      induction ts with
      | nil => simp [abandoned]
      | cons t ts ih =>
        cases ts with
        | nil => exact fun e he => ⟨_, _, List.mem_singleton.1 he⟩
        | cons t' ts =>
          rw [abandoned]
          · exact List.forall_mem_cons.2 ⟨⟨_, _, rfl⟩, ih⟩
          · simp
    have heffects : ∀ r, ∀ e ∈ handedOut t rest r,
        (∃ c o, e = .settle c o) ∨ ∃ ts, e = .work (.handOut ts) := fun r => by
      rcases r with (e | text) | _
      · simp [handedOut]
      · exact fun e he => .inl (habandoned text _ e he)
      · simp [handedOut]
    rw [handOut_cons]
    refine ⟨alike_setArena _ _ _, fun _ => rfl, fun _ => rfl, fun e he => ?_, fun t' ht' => ?_⟩
    · rcases heffects _ e he with ⟨c, o, rfl⟩ | ⟨ts, rfl⟩ <;> trivial
    · rcases heffects _ _ ht' with ⟨c, o, h⟩ | ⟨ts, h⟩ <;> cases h

theorem attend_continues (p : Platform) (t : Participant) :
    p.Continues (p.attend t).1 (p.attend t).2 := by
  cases h : p.transport.contributions? t.exchange.kind t.cell with
  | some r =>
    rw [attend_of_settled p h]
    exact p.handOut_continues [t]
  | none =>
    rw [attend_of_pending p h]
    refine ⟨.of_hosts rfl, fun k => ?_, fun k => ?_, by simp, by simp⟩
    all_goals
      rw [Transport.register, Transport.get_set]
      split
      · next hk => subst hk; simp [Rendezvous.register]
      · rfl

theorem resolve_continues (p : Platform) (values : List (List Bytes)) (t : Participant) :
    p.Continues (p.resolve values t).1 (p.resolve values t).2 := by
  refine ⟨.of_hosts rfl, fun k => ?_, fun k => ?_, fun e he => ?_, fun t' ht' => ?_⟩
  · rw [resolve, Transport.settle, Transport.get_set]
    split
    · next hk => subst hk; rfl
    · rfl
  · rw [resolve, Transport.settle, Transport.get_set]
    split
    · next hk => subst hk; exact Cells.size_settle _ _ _
    · rfl
  · rw [List.mem_singleton.1 he]
    trivial
  · cases List.mem_singleton.1 ht'

theorem perform_continues (p : Platform) {w : Work} (hw : Effect.IsExchange (.work w)) :
    p.Continues (backend.perform w p).1 (backend.perform w p).2.1 := by
  cases w with
  | attend t => exact p.attend_continues t
  | resolve values t => exact p.resolve_continues values t
  | handOut ts => exact p.handOut_continues ts
  | thread => cases hw

theorem perform_passes (p : Platform) {w : Work} (hw : Effect.IsExchange (.work w))
    (hcell : ∀ t, w = .attend t → t.cell < (p.transport.get t.exchange.kind).cells.size) :
    p.Passes w.calls (backend.perform w p).1 (backend.perform w p).2.1 := by
  cases w with
  | attend t => exact p.attend_passes (hcell t rfl)
  | resolve values t => exact p.resolve_passes values t
  | handOut ts => exact p.handOut_passes ts
  | thread => cases hw

/-- Launching an operation changes at most arenas and exchanges, and asks for nothing but what
exchanges ask for; something is going to settle the call. -/
structure Opens (p p' : Platform) (c : CallKey) (effects : List (Effect Work)) : Prop where
  alike : p.Alike p'
  asked : ∀ e ∈ effects, Effect.IsExchange e
  attended : ∀ t, .work (.attend t) ∈ effects →
    t.cell < (p'.transport.get t.exchange.kind).cells.size
  size : ∀ k, (p.transport.get k).cells.size ≤ (p'.transport.get k).cells.size
  sized : ∀ k, (p'.transport.get k).Sized
  passes : p.Passes [c] p' effects

theorem opens_settle (p : Platform) (hsized : ∀ k, (p.transport.get k).Sized) (h : Nat) (a : Arena)
    (c : CallKey) (o : Outcome) : p.Opens (p.setArena h a) c [.settle c o] where
  alike := p.alike_setArena h a
  asked := fun e he => by
    rw [List.mem_singleton.1 he]
    trivial
  attended := fun t ht => by cases List.mem_singleton.1 ht
  size := fun k => Nat.le_refl _
  sized := hsized
  passes := .refl _

theorem launchCollective_opens (p : Platform) (hsized : ∀ k, (p.transport.get k).Sized) (c : CallKey)
    (info : OpInfo) (op : Collective) :
    p.Opens (p.launchCollective c info op).1 c
      (Machine.Backend.opening c (p.launchCollective c info op).2) := by
  have hpasses := p.launchCollective_passes c info op
  cases h : p.entry c info op with
  | error e =>
    have heq := launchCollective_of_error p h
    rw [heq]
    have := p.opens_settle hsized c.run.host (p.arenaOf c.run.host) c (.error e)
    rwa [setArena_arenaOf] at this
  | ok e =>
    obtain ⟨timers, heq⟩ := launchCollective_of_ok p h
    rw [heq] at hpasses ⊢
    -- what entering does to each rendezvous
    have henter : (∀ k, ((p.transport.enter e.exchange e.key e.rank e.blocks).1.get k).Sized ∧
          (p.transport.get k).cells.size ≤
            ((p.transport.enter e.exchange e.key e.rank e.blocks).1.get k).cells.size) ∧
        ∀ d, (p.transport.enter e.exchange e.key e.rank e.blocks).2.answer = .ok d →
          d < ((p.transport.enter e.exchange e.key e.rank e.blocks).1.get
            e.exchange.kind).cells.size := by
      unfold Transport.enter
      split
      · exact ⟨fun k => ⟨hsized k, Nat.le_refl _⟩, by simp [Entrance.answer]⟩
      · obtain ⟨hs, hsize, hcell⟩ := (hsized e.exchange.kind).enter e.key e.rank e.blocks
        refine ⟨fun k => ?_, fun d hd => ?_⟩
        · rw [Transport.get_set]
          split
          · next hk => subst hk; exact ⟨hs, hsize⟩
          · exact ⟨hsized k, Nat.le_refl _⟩
        · rw [Transport.get_set, if_pos rfl]
          exact hcell d hd
    obtain ⟨hs, hcell⟩ := henter
    refine ⟨.of_hosts rfl, fun f hf => ?_, fun t ht => ?_, fun k => (hs k).2, fun k => (hs k).1,
      hpasses⟩
    · revert hf
      simp only [Machine.Backend.opening]
      rcases (p.transport.enter e.exchange e.key e.rank e.blocks).2 with
        error | ⟨cell, isNew⟩ | ⟨cell, _ | values⟩ <;> simp +contextual [joined, Effect.IsExchange]
    · revert ht hcell
      simp only [Machine.Backend.opening]
      rcases (p.transport.enter e.exchange e.key e.rank e.blocks).2 with
        error | ⟨cell, isNew⟩ | ⟨cell, _ | values⟩ <;> simp +contextual [joined, Entrance.answer]

end Platform

end OpFlow
