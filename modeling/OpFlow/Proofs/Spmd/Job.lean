import OpFlow.Proofs.Machine.Rest
import OpFlow.Proofs.Machine.Scene
import OpFlow.Proofs.Spmd.Locality
import OpFlow.Proofs.Collective.Membership
import Mathlib.Logic.Relation

/-!
Jobs: one straight-line program that every replica executes once, as the same run, with one transport
for all. The hosts of a job take their steps in any order; no timer runs out meanwhile. A job is well
formed when every collective splits the replicas into groups, no two collectives of one kind have the
same number, and whatever else the program does keeps to what it declares.
-/
namespace OpFlow

open Machine (CallKey RunKey Crew World)

/-- One computation for each of `n` replicas. -/
structure DeviceAssignment.IsReplicated (a : DeviceAssignment) (n : Nat) : Prop where
  replicas : a.replicas = n
  computations : a.computations = 1
  length : a.devices.length = n
  nodup : a.devices.Nodup

theorem DeviceAssignment.IsReplicated.isGrid {a : DeviceAssignment} {n : Nat}
    (h : a.IsReplicated n) : a.IsGrid :=
  ⟨by rw [h.length, h.replicas, h.computations, Nat.mul_one], h.nodup⟩

theorem DeviceAssignment.isReplicated_of_create {n : Nat} {ds : List DeviceId}
    {a : DeviceAssignment} (h : create n 1 ds = .ok a) : a.IsReplicated n := by
  obtain ⟨rfl, hgrid⟩ := isGrid_of_create h
  exact ⟨rfl, rfl, by simpa using hgrid.length, hgrid.nodup⟩

namespace Machine.Crew

def Choice.IsOwn {σ ι : Type} : Choice σ ι → Prop
  | .act _ | .take _ _ _ => True
  | .drop _ _ _ | .outside _ | .execute _ => False

end Machine.Crew

structure Job where
  world : World Primitive Platform Work
  ops : List (OpInfo × Primitive)
  run : RunId
  assignment : DeviceAssignment

namespace Job

variable (J : Job)

def replicas : Nat := J.world.hosts.size

def key (h i : Nat) : CallKey := ⟨⟨h, 0, []⟩, i⟩

def Joins (i : Nat) (info : OpInfo) (op : Collective) : Prop :=
  J.ops[i]? = some (info, .collective op)

structure IsWellFormed : Prop where
  fresh : J.world.IsFresh
  hosts : J.world.device.hosts.size = J.replicas
  program : ∀ h ∈ J.world.hosts, h.program.ops = J.ops.map fun op => .leaf op.1 op.2
  assignment : J.assignment.IsReplicated J.replicas
  /-- Host `h` runs replica `h`. -/
  context : ∀ h host, J.world.device.host? h = some host → ∃ ctx,
    host.context.collective = some ctx ∧ ctx.run = J.run ∧ ctx.assignment = J.assignment ∧
      J.assignment.devices[h]? = some ctx.device
  transport : ∃ timeout, J.world.device.transport = .ofTimeout timeout
  groups : ∀ i info op, J.Joins i info op →
    op.groups = [] ∨ op.groups.flatten.Perm (List.range J.replicas)
  numbers : ∀ i j info info' op op', J.Joins i info op → J.Joins j info' op' →
    op.exchange.kind = op'.exchange.kind → op.op = op'.op → i = j
  others : ∀ i info (op : Primitive), J.ops[i]? = some (info, op) → (∀ c, op ≠ .collective c) →
    ∀ h host, J.world.device.host? h = some host → op.IsLocal info (key h i) host

def crew : Crew Primitive Platform Work :=
  (List.range J.replicas).foldl (fun s h => s.execute h) { world := J.world }

/-- A state that some interleaving of the hosts leads to. -/
def Reaches (s : Crew Primitive Platform Work) : Prop :=
  Relation.ReflTransGen (fun s t => ∃ c, c.IsOwn ∧ Crew.Move Platform.backend c s t) J.crew s

def plan (r : RunKey) (region : Program Primitive) : Prop :=
  ∃ h host, J.world.hosts[h]? = some host ∧ r = ⟨h, 0, []⟩ ∧ region = host.program

variable {J : Job}

theorem IsWellFormed.isPlan (hJ : J.IsWellFormed) : Crew.IsPlan J.plan := by
  constructor
  · rintro r region ⟨h, host, -, rfl, -⟩
    rfl
  · rintro r region ⟨h, host, hhost, -, rfl⟩ op hop
    rw [hJ.program host (Array.mem_of_getElem? hhost)] at hop
    obtain ⟨⟨info, a⟩, -, rfl⟩ := List.mem_map.1 hop
    exact ⟨info, a, rfl⟩

theorem IsWellFormed.of_plan (hJ : J.IsWellFormed) {c : CallKey} {region : Program Primitive}
    {info : OpInfo} {a : Primitive} (hr : J.plan c.run region)
    (hop : region.ops[c.node]? = some (.leaf info a)) :
    ∃ h < J.replicas, c = key h c.node ∧ J.ops[c.node]? = some (info, a) := by
  obtain ⟨h, host, hhost, hrun, rfl⟩ := hr
  obtain ⟨hlt, -⟩ := Array.getElem?_eq_some_iff.1 hhost
  refine ⟨h, hlt, by rw [key, ← hrun], ?_⟩
  rw [hJ.program host (Array.mem_of_getElem? hhost), List.getElem?_map, Option.map_eq_some_iff] at hop
  obtain ⟨⟨info', a'⟩, hget, heq⟩ := hop
  cases heq
  exact hget

theorem IsWellFormed.host (hJ : J.IsWellFormed) {h : Nat} (hh : h < J.replicas) :
    ∃ host, J.world.device.host? h = some host :=
  ⟨_, Array.getElem?_eq_getElem (hJ.hosts ▸ hh)⟩

/-- The first `m` hosts are about to execute their programs, and nothing else has happened. -/
structure Ready (J : Job) (m : Nat) (s : Crew Primitive Platform Work) : Prop where
  reachable : Crew.Reachable Platform.backend s
  device : s.world.device = J.world.device
  kept : s.world.kept = []
  log : s.log = []
  begun : s.begun = []
  call : ∀ c, s.world.call? c = none
  hosts : ∀ h, m ≤ h → s.world.hosts[h]? = J.world.hosts[h]?
  threads : ∀ items ∈ s.threads, ∃ h host, J.world.hosts[h]? = some host ∧
    items = [.start ⟨h, 0, []⟩ host.program]
  starts : ∀ h host, h < m → J.world.hosts[h]? = some host →
    [.start ⟨h, 0, []⟩ host.program] ∈ s.threads

theorem Ready.execute (hJ : J.IsWellFormed) {m : Nat} {s : Crew Primitive Platform Work}
    (hs : J.Ready m s) : J.Ready (m + 1) (s.execute m) := by
  cases hm : s.world.hosts[m]? with
  | none =>
    have hnone : s.execute m = s := by rw [Crew.execute, hm]
    rw [hnone]
    refine { hs with hosts := fun h hh => hs.hosts h (by omega), starts := fun h host hh hhost => ?_ }
    rcases Nat.lt_or_eq_of_le (Nat.le_of_lt_succ hh) with hlt | rfl
    · exact hs.starts h host hlt hhost
    · rw [← hs.hosts h le_rfl, hm] at hhost
      cases hhost
  | some host =>
    have hhost : J.world.hosts[m]? = some host := (hs.hosts m le_rfl).symm.trans hm
    have hempty := hJ.fresh.executions host (Array.mem_of_getElem? hhost)
    have hsize : host.executions.size = 0 := by rw [hempty]; rfl
    have hspawned := Crew.spawned_of_execute s hm
    have hexecute : s.execute m = ({ s with world := s.world.modifyHost m fun h =>
        { h with executions := h.executions.push {} } } : Crew _ _ _).spawn
          [.start ⟨m, 0, []⟩ host.program] := by
      rw [Crew.execute, hm]
      simp only [hsize]
    have hcall : (s.execute m).world.call? = s.world.call? := by
      rw [hexecute, ← hspawned.call]
      rfl
    refine ⟨hs.reachable.execute m, ?_, ?_, ?_, ?_, ?_, ?_, ?_, ?_⟩
    · rw [hexecute]
      exact hs.device
    · rw [hexecute]
      exact hs.kept
    · rw [hexecute]
      exact hs.log
    · rw [hexecute]
      exact hs.begun
    · rw [hcall]
      exact hs.call
    · intro h hh
      rw [hexecute, ← hs.hosts h (by omega)]
      simp only [Crew.spawn, World.modifyHost, Array.getElem?_modify]
      rw [if_neg (by omega)]
    · rw [hexecute]
      intro items hitems
      rcases List.mem_append.1 hitems with hitems | hitems
      · exact hs.threads items hitems
      · exact ⟨m, host, hhost, List.mem_singleton.1 hitems⟩
    · intro h host' hh hhost'
      rw [hexecute]
      rcases Nat.lt_or_eq_of_le (Nat.le_of_lt_succ hh) with hlt | rfl
      · exact List.mem_append_left _ (hs.starts h host' hlt hhost')
      · rw [hhost] at hhost'
        obtain rfl := Option.some.inj hhost'
        exact List.mem_append_right _ (List.mem_singleton_self _)

theorem IsWellFormed.ready (hJ : J.IsWellFormed) : J.Ready J.replicas J.crew := by
  have hstart : J.Ready 0 { world := J.world } := by
    refine ⟨.fresh hJ.fresh, rfl, ?_, rfl, rfl, fun c => ?_, fun _ _ => rfl, by simp, by simp⟩
    · rw [World.kept, List.flatMap_eq_nil_iff]
      exact fun q hq => hJ.fresh.queued q (by simpa using hq)
    · simp [World.call?, hJ.fresh.execution?_eq_none]
  have hall : ∀ m, J.Ready m
      ((List.range m).foldl (fun s h => s.execute h) ({ world := J.world } : Crew _ _ _)) :=
    fun m => by
      induction m with
      | zero => exact hstart
      | succ m ih =>
        rw [List.range_succ, List.foldl_append]
        exact ih.execute hJ
  exact hall J.replicas

namespace Ready

variable {m : Nat} {s : Crew Primitive Platform Work}

theorem straight (hs : J.Ready m s) : s.Straight J.plan := by
  refine ⟨fun r region hr => ?_, fun items hitems x hx => ?_, fun c y hy => ?_⟩
  · rcases hr with hr | ⟨items, hitems, hmem⟩
    · rw [hs.begun] at hr
      cases hr
    · obtain ⟨h, host, hhost, rfl⟩ := hs.threads items hitems
      obtain ⟨rfl, rfl⟩ : r = ⟨h, 0, []⟩ ∧ region = host.program := by simpa using hmem
      exact ⟨h, host, hhost, rfl, rfl⟩
  · obtain ⟨h, host, -, rfl⟩ := hs.threads items hitems
    obtain rfl := List.mem_singleton.1 hx
    exact id
  · rw [hs.call] at hy
    cases hy

theorem scene_eq (hs : J.Ready m s) : s.scene = ⟨J.world.device, [], fun _ => none, ∅, ∅⟩ := by
  have hthreads : s.threads.flatMap (fun items => items.filterMap Machine.Item.effect?) = [] := by
    rw [List.flatMap_eq_nil_iff]
    intro items hitems
    obtain ⟨h, host, -, rfl⟩ := hs.threads items hitems
    rfl
  rw [Crew.scene, Machine.Scene.mk.injEq]
  refine ⟨hs.device, ?_, funext fun c => by rw [hs.call]; rfl, ?_, ?_⟩
  · rw [Crew.requests, hthreads, hs.kept]
    rfl
  · simp [hs.log]
  · simp [hs.log]

end Ready

variable {s : Crew Primitive Platform Work}

theorem Reaches.course (hJ : J.IsWellFormed) (h : J.Reaches s) :
    Crew.Reachable Platform.backend s ∧ s.Straight J.plan ∧
      Relation.ReflTransGen (Machine.Scene.Step Platform.backend J.plan) J.crew.scene s.scene := by
  induction h with
  | refl => exact ⟨hJ.ready.reachable, hJ.ready.straight, .refl⟩
  | @tail s t _ hmove ih =>
    obtain ⟨hreach, hstraight, hscenes⟩ := ih
    obtain ⟨c, hown, hm⟩ := hmove
    cases hm with
    | act hi hw =>
      exact ⟨hreach.move (.act hi hw), hstraight.act hJ.isPlan hreach.sound hi hw,
        hscenes.tail (hstraight.scene_act hJ.isPlan hreach.sound hi hw)⟩
    | take hk hr => exact ⟨hreach.move (.take hk hr), hstraight.take, hscenes.tail (Crew.scene_take hk hr)⟩
    | drop | outside | execute => exact hown.elim

/-- Every host has begun to execute its program, or is about to. -/
theorem Reaches.hasRegion (hJ : J.IsWellFormed) (h : J.Reaches s) {k : Nat}
    {host : Machine.Host Primitive} (hk : J.world.hosts[k]? = some host) :
    s.HasRegion ⟨k, 0, []⟩ host.program := by
  induction h with
  | refl =>
    have hlt : k < J.replicas := (Array.getElem?_eq_some_iff.1 hk).1
    exact .inr ⟨_, hJ.ready.starts k host hlt hk, List.mem_singleton_self _⟩
  | @tail s t hs hmove ih =>
    obtain ⟨c, hown, hm⟩ := hmove
    cases hm with
    | @act _ i item rest w hi hw =>
      obtain ⟨items, tasks, run, call, hb, -⟩ := World.step_cases rfl hw fun r region hr =>
        (Reaches.course hJ hs).1.sound.known r (Crew.hasBegun_of_head (hr ▸ hi))
      exact ih.after hi hb
    | take hk hr =>
      rcases ih with hmem | ⟨items, hitems, hmem⟩
      · exact .inl hmem
      · exact .inr ⟨items, List.mem_append_left _ hitems, hmem⟩
    | drop | outside | execute => exact hown.elim

theorem Reaches.begun (hJ : J.IsWellFormed) (h : J.Reaches s) (hidle : s.IsIdle) {k : Nat}
    {host : Machine.Host Primitive} (hk : J.world.hosts[k]? = some host) :
    (⟨k, 0, []⟩, host.program) ∈ s.begun := by
  rcases h.hasRegion hJ hk with hmem | ⟨items, hitems, hmem⟩
  · exact hmem
  · rw [hidle.threads items hitems] at hmem
    cases hmem

end Job

end OpFlow
