import OpFlow.Proofs.Spmd.Job
import OpFlow.Proofs.Spmd.Passing

/-!
Teams, and execution in lockstep: all hosts of a job execute one operation after the other, each
together with all the others. A host that has done some of its operations, all before those that
conflict with them, has an arena that matches this execution: each slot holds what it holds in
lockstep after the last operation done that writes it.
-/
namespace OpFlow

/-! ### Teams -/

def DeviceAssignment.deviceOf (a : DeviceAssignment) (replica : Nat) : DeviceId :=
  a.devices.getD replica default

namespace DeviceAssignment.IsReplicated

variable {a : DeviceAssignment} {n h k : Nat}

theorem getElem? (ha : a.IsReplicated n) (hh : h < n) : a.devices[h]? = some (a.deviceOf h) := by
  have hlt : h < a.devices.length := ha.length ▸ hh
  simp [deviceOf, hlt]

theorem get? (ha : a.IsReplicated n) (hh : h < n) : a.get? h 0 = some (a.deviceOf h) := by
  rw [DeviceAssignment.get?, ha.replicas, ha.computations, if_pos ⟨hh, Nat.one_pos⟩, Nat.mul_one,
    Nat.add_zero, ha.getElem? hh]

theorem deviceAt_zero (ha : a.IsReplicated n) (hh : h < n) : a.deviceAt 0 h = a.deviceOf h := by
  rw [deviceAt, ha.get? hh, Option.getD_some]

theorem deviceOf_inj (ha : a.IsReplicated n) (hh : h < n) (hk : k < n)
    (heq : a.deviceOf h = a.deviceOf k) : h = k :=
  (ha.isGrid.get?_inj (ha.get? hh) (heq ▸ ha.get? hk)).1

end DeviceAssignment.IsReplicated

namespace Collective

variable {op : Collective} {n h k : Nat}

def Splits (op : Collective) (n : Nat) : Prop :=
  op.groups = [] ∨ op.groups.flatten.Perm (List.range n)

def team (op : Collective) (n h : Nat) : List Nat :=
  if op.groups.isEmpty then List.range n else (op.groups.find? fun g => g.contains h).getD []

structure IsTeam (op : Collective) (n : Nat) (g : List Nat) : Prop where
  nodup : g.Nodup
  lt : ∀ k ∈ g, k < n
  team : ∀ k ∈ g, op.team n k = g

theorem Splits.areApart (hs : op.Splits n) : AreApart op.groups n := by
  rcases hs with hnil | hperm
  · rw [hnil]
    exact ⟨by simp, .nil, by simp⟩
  · obtain ⟨hnodup, hdisjoint⟩ := List.nodup_flatten.1 (hperm.nodup_iff.2 List.nodup_range)
    refine ⟨hnodup, hdisjoint, fun g hg k hk => ?_⟩
    exact List.mem_range.1 (hperm.mem_iff.1 (List.mem_flatten.2 ⟨g, hg, hk⟩))

theorem Splits.exists_mem (hs : op.Splits n) (hh : h < n) : ∃ g ∈ op.groupsIn n, h ∈ g := by
  rw [groupsIn]
  split
  · exact ⟨_, List.mem_singleton_self _, List.mem_range.2 hh⟩
  · next hempty =>
    have hperm := hs.resolve_left fun hnil => hempty (by rw [hnil]; rfl)
    exact List.mem_flatten.1 (hperm.mem_iff.2 (List.mem_range.2 hh))

theorem team_of_mem {g : List Nat} (hop : AreApart op.groups n) (hg : g ∈ op.groupsIn n)
    (hh : h ∈ g) : op.team n h = g := by
  rw [team]
  rw [groupsIn] at hg
  split
  · next hempty =>
    rw [if_pos hempty] at hg
    exact (List.mem_singleton.1 hg).symm
  · next hempty =>
    rw [if_neg hempty] at hg
    rw [hop.find?_contains hg hh, Option.getD_some]

theorem Splits.isTeam (hs : op.Splits n) (hh : h < n) :
    op.IsTeam n (op.team n h) ∧ h ∈ op.team n h := by
  obtain ⟨g, hg, hmem⟩ := hs.exists_mem hh
  rw [team_of_mem hs.areApart hg hmem]
  have hgroups := hs.areApart.groupsIn
  exact ⟨⟨hgroups.nodup g hg, hgroups.lt g hg, fun k hk => team_of_mem hs.areApart hg hk⟩, hmem⟩

def seat (op : Collective) (n h : Nat) : Nat := (op.team n h).idxOf h

theorem membership_eq (hs : op.Splits n) {ctx : CollectiveContext}
    (ha : ctx.assignment.IsReplicated n) (hh : h < n)
    (hdevice : ctx.assignment.devices[h]? = some ctx.device) (info : OpInfo) :
    op.membership info ctx =
      .ok ⟨(op.team n h).map ctx.assignment.deviceOf, op.seat n h, 0⟩ := by
  obtain ⟨g, hg, hmem⟩ := hs.exists_mem hh
  have hd : ctx.assignment.get? h 0 = some ctx.device := by
    rw [ha.get? hh, ← ha.getElem? hh, hdevice]
  have hdevices : g.map (ctx.assignment.deviceAt 0) = g.map ctx.assignment.deviceOf :=
    List.map_congr_left fun k hk => ha.deviceAt_zero (hs.areApart.groupsIn.lt g hg k hk)
  rw [seat, team_of_mem hs.areApart hg hmem, ← hdevices]
  exact membership_of_mem rfl ha.isGrid (ha.replicas ▸ hs.areApart) hd (ha.replicas ▸ hg) hmem

end Collective

/-! ### Lockstep -/

open Machine (CallKey Effect)

namespace Job

variable (J : Job)

def room (op : Collective) (g : List Nat) : RendezvousKey :=
  ⟨J.run, g.map J.assignment.deviceOf, op.op⟩

def exchangeOf (op : Collective) (h : Nat) : Exchange :=
  op.exchangeIn J.assignment
    ⟨(op.team J.replicas h).map J.assignment.deviceOf, op.seat J.replicas h, 0⟩

/-- What a replica with this arena brings to an exchange, or why it cannot take part. -/
def offer (op : Collective) (h : Nat) (a : Arena) : Except Error (List Bytes) := do
  op.blocks (op.team J.replicas h).length (← a.read op.source)

def brought (op : Collective) (a : Arena) (h : Nat) : List Bytes := ((J.offer op h a).toOption).getD []

def exchanged (op : Collective) (arenas : Nat → Arena) (h : Nat) : Except Error (Option Bytes) :=
  (J.exchangeOf op h).result (op.seat J.replicas h)
    ((op.team J.replicas h).map fun k => J.brought op (arenas k) k)

/-- What becomes of the arenas when all hosts execute an operation together. -/
def advance (i : Nat) (arenas : Nat → Arena) (h : Nat) : Arena :=
  match J.ops[i]? with
  | none => arenas h
  | some (_, .collective op) =>
    (Arena.receive (J.exchanged op arenas h) op.destination (arenas h)).1
  | some (info, op) =>
    (Platform.launch (key h i) info op (J.world.device.setArena h (arenas h))).1.arenaOf h

/-- The arenas after the first operations, when all hosts execute each operation together. -/
def lockstep : Nat → Nat → Arena
  | 0 => J.world.device.arenaOf
  | i + 1 => J.advance i (lockstep i)

def footprintOf (i : Nat) : Footprint := ((J.ops[i]?).map fun op => op.2.footprint).getD {}

variable {J} {i j : Nat} {info : OpInfo} {op : Collective} {h k : Nat}

theorem footprintOf_eq {a : Primitive} (hi : J.ops[i]? = some (info, a)) :
    J.footprintOf i = a.footprint := by
  simp [footprintOf, hi]

theorem lt_length_of_writes {x : Place} (hw : (J.footprintOf i).writes x) : i < J.ops.length := by
  by_contra hi
  rw [footprintOf, List.getElem?_eq_none (Nat.le_of_not_lt hi)] at hw
  cases hw

theorem conflicts_of_writes {x : Place} (hw : (J.footprintOf i).writes x)
    (ht : x ∈ (J.footprintOf j).places) : (J.footprintOf i).conflicts (J.footprintOf j) :=
  Footprint.conflicts_iff.2 ⟨x, Footprint.mem_places_of_writes hw, ht, .inl hw⟩

theorem Joins.unique {info' : OpInfo} {op' : Collective} (h : J.Joins i info op)
    (h' : J.Joins i info' op') : op = op' := by
  have heq := h.symm.trans h'
  cases heq
  rfl

theorem kind_exchangeOf (op : Collective) (h : Nat) :
    (J.exchangeOf op h).kind = op.exchange.kind :=
  op.kind_exchangeIn _ _

def Meets (J : Job) (i : Nat) (op : Collective) (g : List Nat) : Prop :=
  (∃ info, J.Joins i info op) ∧ ∃ h < J.replicas, g = op.team J.replicas h

section Meets

variable {g g' : List Nat} {op' : Collective}

theorem Meets.isTeam (hJ : J.IsWellFormed) (hm : J.Meets i op g) : op.IsTeam J.replicas g := by
  obtain ⟨⟨info, hi⟩, h, hh, rfl⟩ := hm
  exact (Collective.Splits.isTeam (hJ.groups i info op hi) hh).1

/-- Who meets in one room is of one team, for one operation. -/
theorem Meets.room_inj (hJ : J.IsWellFormed) (hm : J.Meets i op g) (hm' : J.Meets j op' g')
    (hkind : op.exchange.kind = op'.exchange.kind) (hroom : J.room op g = J.room op' g') :
    i = j ∧ g = g' := by
  obtain ⟨⟨info, hi⟩, -⟩ := id hm
  obtain ⟨⟨info', hj⟩, -⟩ := id hm'
  obtain ⟨-, hdevices, hop⟩ := RendezvousKey.mk.inj hroom
  refine ⟨hJ.numbers i j info info' op op' hi hj hkind hop, ?_⟩
  have hlt := (hm.isTeam hJ).lt
  have hlt' := (hm'.isTeam hJ).lt
  clear hm hm' hroom
  induction g generalizing g' with
  | nil =>
    cases g' with
    | nil => rfl
    | cons => cases hdevices
  | cons k g ih =>
    cases g' with
    | nil => cases hdevices
    | cons k' g' =>
      obtain ⟨hhead, htail⟩ := List.cons.inj hdevices
      obtain ⟨hk, hg⟩ := List.forall_mem_cons.1 hlt
      obtain ⟨hk', hg'⟩ := List.forall_mem_cons.1 hlt'
      rw [hJ.assignment.deviceOf_inj hk hk' hhead, ih htail hg hg']

end Meets

/-- What a host brings to an exchange is what its arena offers. -/
theorem IsWellFormed.entry_eq (hJ : J.IsWellFormed) (hi : J.Joins i info op) (hh : h < J.replicas)
    {p : Platform} (hp : J.world.device.Alike p) :
    p.entry (key h i) info op = (J.offer op h (p.arenaOf h)).map fun blocks =>
      ⟨J.exchangeOf op h, J.room op (op.team J.replicas h), op.seat J.replicas h, blocks⟩ := by
  obtain ⟨host, hhost⟩ := hJ.host hh
  obtain ⟨ctx, hctx, hrun, hassignment, hdevice⟩ := hJ.context h host hhost
  have hcontext : p.contextOf h = host.context := by
    rw [Platform.contextOf, hp h, hhost]
    rfl
  have hmembership := Collective.membership_eq (hJ.groups i info op hi)
    (by rw [hassignment]; exact hJ.assignment) hh (by rw [hassignment]; exact hdevice) info
  have hlength : ((op.team J.replicas h).map ctx.assignment.deviceOf).length =
      (op.team J.replicas h).length := List.length_map _
  have hrequire : host.context.requireCollective = .ok ctx := by
    rw [RunContext.requireCollective, hctx]
  rw [Platform.entry]
  simp only [key, hcontext, hrequire, hmembership, hlength, bind, Except.bind, offer]
  cases (p.arenaOf h).read op.source with
  | error e => rfl
  | ok input =>
    dsimp only
    cases op.blocks (op.team J.replicas h).length input with
    | error e => rfl
    | ok blocks =>
      simp only [Except.map, exchangeOf, room, hrun, hassignment]
      rfl

theorem advance_collective (hi : J.Joins i info op) (arenas : Nat → Arena) (h : Nat) :
    J.advance i arenas h = (Arena.receive (J.exchanged op arenas h) op.destination (arenas h)).1 := by
  have hget : J.ops[i]? = some (info, .collective op) := hi
  simp only [advance, hget]

theorem advance_local {a : Primitive} (hi : J.ops[i]? = some (info, a))
    (ha : ∀ op, a ≠ .collective op) {host : HostState} (hhost : J.world.device.host? h = some host)
    {g : Arena → Arena × Except String Outcome}
    (hg : ∀ (p : Platform) (b : Arena), p.host? h = some { host with arena := b } →
      Platform.launch (key h i) info a p =
        (p.setArena h (g b).1, (g b).2.map fun o => [.settle (key h i) o])) (arenas : Nat → Arena) :
    J.advance i arenas h = (g (arenas h)).1 := by
  have hset : (J.world.device.setArena h (arenas h)).host? h =
      some { host with arena := arenas h } := by
    simp [Platform.host?_setArena, hhost]
  have hadvance : J.advance i arenas h =
      (Platform.launch (key h i) info a (J.world.device.setArena h (arenas h))).1.arenaOf h := by
    unfold advance
    rw [hi]
    cases a with
    | collective op => exact (ha op rfl).elim
    | _ => rfl
  rw [hadvance, hg _ _ hset]
  exact Platform.arenaOf_setArena_self _ h _ hset

/-- In lockstep too, an operation keeps to its footprint. -/
theorem IsWellFormed.advance_confined (hJ : J.IsWellFormed) (hh : h < J.replicas)
    (arenas : Nat → Arena) : ∃ (β : Type) (g : Arena → Arena × β),
      (J.footprintOf i).Confines g ∧ J.advance i arenas h = (g (arenas h)).1 := by
  cases hi : J.ops[i]? with
  | none =>
    refine ⟨Unit, fun a => (a, ()), ⟨fun _ => rfl, fun _ _ _ => rfl, fun _ _ _ => rfl,
      fun a a' h x hx => h.slot x (Footprint.mem_places_of_writes hx)⟩, ?_⟩
    simp only [advance, hi]
  | some p =>
    obtain ⟨info, a⟩ := p
    rw [footprintOf_eq hi]
    by_cases hcollective : ∃ op, a = .collective op
    · obtain ⟨op, rfl⟩ := hcollective
      refine ⟨_, _, Arena.confines_receive ?_ _, advance_collective hi arenas h⟩
      simp [Primitive.footprint, Footprint.writes, Footprint.touches, BufferUse.write,
        Access.isWrite]
    · have ha : ∀ op, a ≠ .collective op := fun op heq => hcollective ⟨op, heq⟩
      obtain ⟨host, hhost⟩ := hJ.host hh
      obtain ⟨g, hconfines, hg⟩ := hJ.others i info a hi ha h host hhost
      exact ⟨_, g, hconfines, advance_local hi ha hhost hg arenas⟩

section Lockstep

theorem lockstep_succ (J : Job) (i : Nat) : J.lockstep (i + 1) = J.advance i (J.lockstep i) := rfl

theorem IsWellFormed.size_lockstep (hJ : J.IsWellFormed) (hh : h < J.replicas) (i : Nat) :
    (J.lockstep i h).size = (J.lockstep 0 h).size := by
  induction i with
  | zero => rfl
  | succ i ih =>
    obtain ⟨β, g, hg, heq⟩ := hJ.advance_confined (i := i) hh (J.lockstep i)
    rw [lockstep_succ, heq, hg.size, ih]

theorem IsWellFormed.slot_lockstep (hJ : J.IsWellFormed) (hh : h < J.replicas) {x : Nat}
    (hij : i ≤ j) (hx : ∀ k, i ≤ k → k < j → (J.footprintOf k).writes (.slot x) = false) :
    (J.lockstep j h).slots[x]? = (J.lockstep i h).slots[x]? := by
  induction j, hij using Nat.le_induction with
  | base => rfl
  | succ j hij ih =>
    obtain ⟨β, g, hg, heq⟩ := hJ.advance_confined (i := j) hh (J.lockstep j)
    rw [lockstep_succ, heq, hg.frame _ _ (hx j hij (Nat.lt_succ_self j))]
    exact ih fun k hk hkj => hx k hk (Nat.lt_succ_of_lt hkj)

end Lockstep

/-- An arena of a host that has done some of its operations holds in each slot what it holds in
lockstep once those are done of them that write it. -/
structure Matches (J : Job) (h : Nat) (a : Arena) (done : Nat → Prop) : Prop where
  size : a.size = (J.lockstep 0 h).size
  slot : ∀ x k, (∀ j, (J.footprintOf j).writes (.slot x) → (done j ↔ j < k)) →
    a.slots[x]? = (J.lockstep k h).slots[x]?

/-- Of the operations that conflict with operation `i`, the earlier ones are done and the later ones
are not, nor is it itself. -/
structure IsNext (J : Job) (i : Nat) (done : Nat → Prop) : Prop where
  before : ∀ j < i, (J.footprintOf j).conflicts (J.footprintOf i) → done j
  self : ¬ done i
  after : ∀ j, i < j → (J.footprintOf i).conflicts (J.footprintOf j) → ¬ done j

section Matches

variable {a : Arena} {done : Nat → Prop}

theorem matches_start (hJ : J.IsWellFormed) (hh : h < J.replicas) :
    J.Matches h (J.lockstep 0 h) fun _ => False := by
  refine ⟨rfl, fun x k hk => (hJ.slot_lockstep hh (Nat.zero_le k) fun j _ hjk => ?_).symm⟩
  by_contra hj
  exact (hk j (by simpa using hj)).2 hjk

theorem Matches.agreeOn (hm : J.Matches h a done) (hJ : J.IsWellFormed) (hh : h < J.replicas)
    (hi : J.IsNext i done) : a.AgreeOn (J.footprintOf i) (J.lockstep i h) := by
  refine ⟨hm.size.trans (hJ.size_lockstep hh i).symm, fun x hx => hm.slot x i fun j hj => ?_⟩
  have hconflict := conflicts_of_writes hj hx
  constructor
  · intro hdone
    by_contra hge
    rcases Nat.lt_or_eq_of_le (Nat.le_of_not_lt hge) with hlt | rfl
    · exact hi.after j hlt (by rwa [Footprint.conflicts_comm]) hdone
    · exact hi.self hdone
  · exact fun hlt => hi.before j hlt hconflict

/-- Doing an operation when it is its turn keeps an arena in step. -/
theorem Matches.advance (hm : J.Matches h a done) (hJ : J.IsWellFormed) (hh : h < J.replicas)
    (hi : J.IsNext i done) {β : Type} {g : Arena → Arena × β} (hg : (J.footprintOf i).Confines g)
    (heq : J.lockstep (i + 1) h = (g (J.lockstep i h)).1) :
    J.Matches h (g a).1 fun j => done j ∨ j = i := by
  refine ⟨(hg.size a).trans hm.size, fun x k hk => ?_⟩
  by_cases hx : (J.footprintOf i).writes (.slot x)
  · have hik : i < k := (hk i hx).1 (.inr rfl)
    have hbetween : ∀ j, i + 1 ≤ j → j < k → (J.footprintOf j).writes (.slot x) = false :=
      fun j hij hjk => by
        by_contra hj
        have hj : (J.footprintOf j).writes (.slot x) := by simpa using hj
        rcases (hk j hj).2 hjk with hdone | rfl
        · exact hi.after j hij (conflicts_of_writes hx (Footprint.mem_places_of_writes hj)) hdone
        · omega
    rw [hJ.slot_lockstep hh hik hbetween, heq]
    exact hg.written _ _ (hm.agreeOn hJ hh hi) x hx
  · rw [hg.frame a x (by simpa using hx)]
    refine hm.slot x k fun j hj => ?_
    rw [← hk j hj]
    refine ⟨.inl, fun hor => hor.resolve_right ?_⟩
    rintro rfl
    exact hx hj

theorem Matches.eq_lockstep (hm : J.Matches h a done) (hall : ∀ j < J.ops.length, done j) :
    a = J.lockstep J.ops.length h := by
  have hslot : ∀ x, a.slots[x]? = (J.lockstep J.ops.length h).slots[x]? := fun x =>
    hm.slot x _ fun j hj =>
      ⟨fun _ => lt_length_of_writes hj, hall j⟩
  cases a
  cases hlock : J.lockstep J.ops.length h
  rw [hlock] at hslot
  rw [Arena.mk.injEq]
  exact Array.ext_getElem? hslot

end Matches

end Job

end OpFlow
