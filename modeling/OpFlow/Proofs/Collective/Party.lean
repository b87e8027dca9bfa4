import OpFlow.Proofs.Collective.Changes
import OpFlow.Proofs.Collective.Membership
import OpFlow.Proofs.Spmd.Passing

/-!
Parties: the members of one group of a collective, each about to execute it on a host of its own. They
launch it in any order, what they ask for is carried out in any order, and other things may happen in
between as long as they leave the hosts of the party and its place in the rendezvous alone.
-/
namespace OpFlow

open Machine (CallKey Effect Backend)

/-- The members of a group, known by their replicas, on the platform on which they execute a
collective. They agree on the exchange, its number and the groups. -/
structure Party where
  platform : Platform
  run : RunId
  assignment : DeviceAssignment
  computation : Nat
  /-- The replicas of the group, in the order of their ranks. -/
  group : List Nat
  exchange : Exchange
  number : Int
  groups : List (List Nat)
  call : Nat → CallKey
  info : Nat → OpInfo
  source : Nat → Slice
  destination : Nat → Slice
  communicator : Nat → Resource

def Effect.cells : Effect Work → List Nat
  | .settle _ _ => []
  | .work w | .submit _ w => w.participants.map Participant.cell

/-- A party that is under way. -/
structure Bout where
  platform : Platform
  /-- Those who have launched the collective, the last first. -/
  launched : List Nat := []
  /-- The cells that they have been handed. -/
  cells : List Nat := []
  /-- The ends of calls, and the work that is still to be done. -/
  asked : List (Effect Work) := []

namespace Party

variable (P : Party) (r : Nat)

def op : Collective :=
  ⟨P.exchange, P.number, P.groups, P.source r, P.destination r, P.communicator r⟩

def host : Nat := (P.call r).run.host

def arena : Arena := P.platform.arenaOf (P.host r)

def input : Bytes := (((P.arena r).read (P.source r)).toOption).getD []

def devices : List DeviceId := P.group.map (P.assignment.deviceAt P.computation)

def rank : Nat := P.group.idxOf r

def key : RendezvousKey := ⟨P.run, P.devices, P.number⟩

def dealt : Exchange :=
  (P.op r).exchangeIn P.assignment ⟨P.devices, P.rank r, P.computation⟩

def brought : List Bytes :=
  if P.exchange = .allToAll then
    (P.input r).blocks ((P.input r).length / P.group.length) P.group.length
  else [P.input r]

def contributions : List (List Bytes) := P.group.map P.brought

def received : Except Error (Option Bytes) := (P.dealt r).result (P.rank r) P.contributions

def final : Arena × Except Fault Unit :=
  Arena.receive (P.received r) (P.destination r) (P.arena r)

/-- A party that can meet: its group is one of those that the collective makes of an assignment, every
member has its place there and can read and write its slices, and nobody else meets where it does. -/
structure IsWellFormed : Prop where
  assignment : ∃ replicas computations devices,
    DeviceAssignment.create replicas computations devices = .ok P.assignment
  computation : P.computation < P.assignment.computations
  groups : Collective.AreApart P.groups P.assignment.replicas
  group : ∀ r ∈ P.group, P.group ∈ (P.op r).groupsIn P.assignment.replicas
  accepted : ∀ r ∈ P.group, ∃ label, Collective.create (P.op r) label = .ok (P.op r)
  hosts : (P.group.map P.host).Nodup
  context : ∀ r ∈ P.group, ∃ host ctx, P.platform.host? (P.host r) = some host ∧
    host.context.collective = some ctx ∧ ctx.run = P.run ∧ ctx.assignment = P.assignment ∧
      P.assignment.get? r P.computation = some ctx.device
  source : ∀ r ∈ P.group, (P.arena r).Holds (P.source r)
  /-- What is exchanged in blocks can be cut into one for each member. -/
  even : P.exchange = .allToAll → ∀ r ∈ P.group, P.group.length ∣ (P.source r).size
  destination : ∀ r ∈ P.group, (P.arena r).Holds (P.destination r)
  small : ∀ r ∈ P.group, (P.destination r).size < memoryLimit
  vacant : (P.platform.transport.get P.exchange.kind).group? P.key = none

def desk (p : Platform) : Rendezvous (List Bytes) Participant := p.transport.get P.exchange.kind

def start : Bout := { platform := P.platform }

/-- A member launches the collective. -/
def launch (s : Bout) : Bout :=
  let (platform, result) :=
    Platform.launch (P.call r) (P.info r) (.collective (P.op r)) s.platform
  let effects := Backend.opening (P.call r) result
  { platform
    launched := r :: s.launched
    cells := effects.flatMap Effect.cells ++ s.cells
    asked := effects ++ s.asked }

/-- Something has happened that does not concern the party: neither its hosts, nor the group under its
key, nor a cell that it has been handed. So for nobody of the party has the time run out. -/
structure Spares (s : Bout) (p : Platform) : Prop where
  host : ∀ r ∈ P.group, p.host? (P.host r) = s.platform.host? (P.host r)
  group : (P.desk p).group? P.key = (P.desk s.platform).group? P.key
  size : (P.desk s.platform).cells.size ≤ (P.desk p).cells.size
  cell : ∀ c ∈ s.cells, (P.desk p).cells[c]? = (P.desk s.platform).cells[c]?

/-- A party takes a step by itself. -/
inductive Own (s : Bout) : Bout → Prop
  | launch {r : Nat} (hr : r ∈ P.group) (hnew : r ∉ s.launched) : Own s (P.launch r s)
  | perform {w : Work} {rest : List (Effect Work)} (h : s.asked.Perm (.work w :: rest)) :
      Own s { s with
        platform := (Platform.backend.perform w s.platform).1
        asked := (Platform.backend.perform w s.platform).2.1 ++ rest }

inductive Step (s : Bout) : Bout → Prop
  | own {s' : Bout} (h : P.Own s s') : Step s s'
  | outside {p : Platform} (h : P.Spares s p) : Step s { s with platform := p }

/-- What may become of the party. -/
def Reaches (s : Bout) : Prop := Relation.ReflTransGen P.Step P.start s

/-- However the party goes on, and whatever happens elsewhere in the meantime, it comes to be so. -/
inductive Inevitably (Q : Bout → Prop) : Bout → Prop
  | now {s : Bout} (h : Q s) : Inevitably Q s
  | later {s : Bout} (hgoes : ∀ p, P.Spares s p → ∃ s', P.Own { s with platform := p } s')
      (h : ∀ p s', P.Spares s p → P.Own { s with platform := p } s' → Inevitably Q s') :
      Inevitably Q s

/-- One of the steps that a party takes by itself. -/
inductive Move
  | launch (r : Nat)
  /-- The `i`th thing that is asked for is done, if it is work. -/
  | perform (i : Nat)

def move (s : Bout) : Move → Bout
  | .launch r => if r ∈ P.group ∧ r ∉ s.launched then P.launch r s else s
  | .perform i =>
    match s.asked[i]? with
    | some (.work w) =>
      { s with
        platform := (Platform.backend.perform w s.platform).1
        asked := (Platform.backend.perform w s.platform).2.1 ++ s.asked.eraseIdx i }
    | _ => s

def follow (s : Bout) (moves : List Move) : Bout := moves.foldl P.move s

/-- All have launched the collective, and nothing is left to do. -/
structure IsComplete (s : Bout) : Prop where
  launched : ∀ r ∈ P.group, r ∈ s.launched
  done : ∀ w, .work w ∉ s.asked

variable {P r}

theorem isComplete_iff {s : Bout} : P.IsComplete s ↔
    (∀ r ∈ P.group, r ∈ s.launched) ∧ ∀ e ∈ s.asked, ¬ e matches .work _ := by
  refine ⟨fun h => ⟨h.launched, fun e he => ?_⟩, fun h => ⟨h.1, fun w hw => h.2 _ hw rfl⟩⟩
  cases e with
  | work w => exact absurd he (h.done w)
  | settle | submit => exact Bool.false_ne_true

instance (s : Bout) : Decidable (P.IsComplete s) := decidable_of_iff _ isComplete_iff.symm

theorem Reaches.follow {s : Bout} (hs : P.Reaches s) (moves : List Move) :
    P.Reaches (P.follow s moves) := by
  induction moves generalizing s with
  | nil => exact hs
  | cons m moves ih =>
    refine ih (s := P.move s m) ?_
    cases m with
    | launch r =>
      rw [move]
      split
      · next h => exact .tail hs (.own (.launch h.1 h.2))
      · exact hs
    | perform i =>
      rw [move]
      split
      · next w hw =>
        obtain ⟨hi, hw⟩ := List.getElem?_eq_some_iff.1 hw
        exact .tail hs (.own (.perform (hw ▸ (List.getElem_cons_eraseIdx_perm hi).symm)))
      · exact hs

namespace IsWellFormed

variable (hP : P.IsWellFormed)
include hP

theorem isGrid : P.assignment.IsGrid := by
  obtain ⟨replicas, computations, devices, h⟩ := hP.assignment
  exact (DeviceAssignment.isGrid_of_create h).2

theorem nodup : P.group.Nodup := hP.hosts.of_map

theorem lt (hr : r ∈ P.group) : r < P.assignment.replicas :=
  (Collective.AreApart.groupsIn hP.groups).lt _ (hP.group r hr) r hr

theorem host_inj {r' : Nat} (hr : r ∈ P.group) (hr' : r' ∈ P.group)
    (heq : P.host r = P.host r') : r = r' :=
  List.inj_on_of_nodup_map hP.hosts hr hr' heq

theorem call_inj {r' : Nat} (hr : r ∈ P.group) (hr' : r' ∈ P.group)
    (heq : P.call r = P.call r') : r = r' :=
  hP.host_inj hr hr' (congrArg (·.run.host) heq)

theorem read_source (hr : r ∈ P.group) : (P.arena r).read (P.source r) = .ok (P.input r) := by
  obtain ⟨bytes, hbytes⟩ := Arena.exists_read_iff.2 (hP.source r hr)
  rw [input, hbytes]
  rfl

theorem length_input (hr : r ∈ P.group) : (P.input r).length = (P.source r).size :=
  Arena.length_of_read (hP.read_source hr)

theorem blocks_eq (hr : r ∈ P.group) :
    (P.op r).blocks P.group.length (P.input r) = .ok (P.brought r) := by
  rw [Collective.blocks, brought, op]
  split
  · next h =>
    have hpos : P.group.length ≠ 0 := List.length_pos_of_mem hr |>.ne'
    have heven := Nat.mod_eq_zero_of_dvd (hP.even h r hr)
    rw [← hP.length_input hr] at heven
    rw [if_neg (by simp [hpos, heven])]
  · rfl

/-- What a member brings to its exchange. -/
theorem entry_eq (hr : r ∈ P.group) {p : Platform}
    (hp : p.host? (P.host r) = P.platform.host? (P.host r)) :
    p.entry (P.call r) (P.info r) (P.op r) = .ok ⟨P.dealt r, P.key, P.rank r, P.brought r⟩ := by
  obtain ⟨state, ctx, hstate, hctx, hrun, hassignment, hdevice⟩ := hP.context r hr
  have hcontext : p.contextOf (P.host r) = state.context := by
    rw [Platform.contextOf, hp, hstate]
    rfl
  have hrequire : state.context.requireCollective = .ok ctx := by
    rw [RunContext.requireCollective, hctx]
  have harena : p.arenaOf (P.host r) = P.arena r := by rw [arena, Platform.arenaOf, hp]; rfl
  have hmembership : (P.op r).membership (P.info r) ctx = .ok ⟨P.devices, P.rank r, P.computation⟩ :=
    Collective.membership_of_mem hassignment hP.isGrid hP.groups hdevice (hP.group r hr) hr
  have hlength : P.devices.length = P.group.length := List.length_map _
  rw [host] at hcontext harena
  rw [Platform.entry]
  simp only [hcontext, hrequire, hmembership, bind, Except.bind, harena, hlength]
  rw [show (P.op r).source = P.source r from rfl, hP.read_source hr]
  simp only [hP.blocks_eq hr, hrun, hassignment]
  rfl

end IsWellFormed

/-- Three of the scattered replicas, out of order, of the second computation. Each has its input in the
first slot and a place for `size` bytes in the second. -/
def scattered (exchange : Exchange) (input : Nat → Bytes) (size : Nat → Nat) : Party where
  platform :=
    { hosts := ((List.range 5).map fun r =>
        { arena := ⟨#[input r, List.replicate (size r) 9]⟩
          context := { collective := some ⟨⟨1⟩, Int.ofNat r,
            Collective.scattered.deviceAt 1 r, Collective.scattered⟩ } }).toArray
      transport := .ofTimeout 5000 }
  run := ⟨1⟩
  assignment := Collective.scattered
  computation := 1
  group := [2, 0, 4]
  exchange
  number := 7
  groups := [[2, 0, 4], [1, 3]]
  call r := ⟨⟨r, 0, []⟩, 0⟩
  info _ := { name := "exchange" }
  source r := ⟨0, 0, (input r).length⟩
  destination r := ⟨1, 0, size r⟩
  communicator _ := ⟨.communicator, 0⟩

theorem isWellFormed_scattered {exchange : Exchange} {input : Nat → Bytes} {size : Nat → Nat}
    (haccepted : ∀ pairs, exchange = .permute pairs → Exchange.repeatedTarget? [] pairs = none)
    (heven : exchange = .allToAll → ∀ r ∈ [2, 0, 4], 3 ∣ (input r).length)
    (hsmall : ∀ r, size r < memoryLimit) : (scattered exchange input size).IsWellFormed := by
  have hmade : DeviceAssignment.create 5 2 Collective.scattered.devices = .ok Collective.scattered := by
    decide
  have hapart : Collective.AreApart [[2, 0, 4], [1, 3]] 5 :=
    ⟨by decide, by simp [List.Disjoint], by decide⟩
  have hplace : ∀ r ∈ [2, 0, 4],
      Collective.scattered.get? r 1 = some (Collective.scattered.deviceAt 1 r) := by decide
  have hread : ∀ r ∈ [2, 0, 4], (scattered exchange input size).arena r =
      ⟨#[input r, List.replicate (size r) 9]⟩ := by
    simp only [List.forall_mem_cons]
    exact ⟨rfl, rfl, rfl, by simp⟩
  refine ⟨⟨5, 2, _, hmade⟩, (by decide : 1 < 2), hapart, fun r _ => ?_, fun r _ => ⟨"", ?_⟩,
    (by decide : [2, 0, 4].Nodup), ?_, fun r hr => ?_, heven, fun r hr => ?_, fun r _ => hsmall r, ?_⟩
  · exact List.mem_cons_self
  · cases exchange with
    | permute pairs =>
      simp only [Collective.create, op, scattered, haccepted pairs rfl]
      rfl
    | allReduce | allGather | reduceScatter | allToAll => rfl
  · simp only [scattered, List.forall_mem_cons]
    exact ⟨⟨_, _, rfl, rfl, rfl, rfl, hplace 2 (by decide)⟩,
      ⟨_, _, rfl, rfl, rfl, rfl, hplace 0 (by decide)⟩,
      ⟨_, _, rfl, rfl, rfl, rfl, hplace 4 (by decide)⟩, by simp⟩
  · rw [hread r hr]
    exact ⟨input r, rfl, (Nat.zero_add _).le⟩
  · rw [hread r hr]
    exact ⟨_, rfl, by simp [scattered]⟩
  · cases exchange <;> rfl

end Party

end OpFlow
