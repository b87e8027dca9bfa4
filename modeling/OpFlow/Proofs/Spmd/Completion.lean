import OpFlow.Proofs.Machine.Rest
import OpFlow.Proofs.Spmd.Synced

/-!
Jobs do not get stuck. When the hosts of a job have come to rest and no operation has failed, every
host has executed its whole program: of the operations that some host has not done the first would
wait for members of its team, but these have launched it too, as they have done all before it. So the
arenas are those of the execution in lockstep, whatever the order in which the hosts went on.
-/
namespace OpFlow

open Machine (CallKey Crew Effect Progress Scene World)

namespace Job

variable {J : Job} {s : Crew Primitive Platform Work}

theorem requests_eq_nil (h : s.IsIdle) : s.requests = [] := by
  have hthreads : s.threads.flatMap (fun items => items.filterMap Machine.Item.effect?) = [] := by
    rw [List.flatMap_eq_nil_iff]
    intro items hitems
    rw [h.threads items hitems]
    rfl
  rw [Crew.requests, hthreads, h.kept]
  rfl

theorem not_failing (h : s.IsIdle) (hs : s.Sound) (hfail : ∀ c e, .ended c (.error e) ∉ s.log) :
    ¬ Failing s.scene := by
  rintro ⟨c, e, hsettle | hprogress | hended⟩
  · rw [show s.scene.requests = [] from requests_eq_nil h] at hsettle
    cases hsettle
  · obtain ⟨y, hy, heq⟩ := Option.map_eq_some_iff.1 hprogress
    have := h.awaited_of_call hs hy
    rw [heq] at this
    cases this
  · exact hfail c e hended

/-- Nobody waits for an exchange that all have joined, once everything has been carried out. -/
theorem Synced.not_awaited {x : Scene Platform Work} (hs : J.Synced x) (hJ : J.IsWellFormed)
    (hl : J.Ledger x) (hrequests : x.requests = []) {h i : Nat}
    (hall : ∀ k < J.replicas, key k i ∈ x.launched) : x.progress (key h i) ≠ some .awaited := by
  intro hawaited
  have howed : x.device.awaiting.count (key h i) = 1 := by
    have hdebts := hl.debts (key h i)
    rw [hawaited, owing, hrequests] at hdebts
    exact hdebts
  have hmem : key h i ∈ x.device.awaiting := List.count_pos_iff.1 (howed ▸ Nat.one_pos)
  obtain ⟨w, hw, hcall⟩ := List.mem_map.1 hmem
  obtain ⟨kind, hkind⟩ := Transport.mem_waiting.1 hw
  obtain ⟨d, hd⟩ := (Cells.mem_allWaiters _).1 hkind
  obtain ⟨cell, hx⟩ := hs.exchanges
  obtain ⟨⟨j, op, k, he⟩, hk, hc, hpending⟩ := hx.waits kind d w hd
  have hj : j = i := by
    have := hcall.symm.trans (by rw [he.eq])
    exact (key_inj.1 this).2.symm
  subst hj hk hc
  have hlt := (he.meets.isTeam hJ).lt
  cases hx.phase_of_engages he with
  | vacant _ hnone => exact hnone k (he.mem_team hJ) he.launched
  | gathering _ _ hfills _ hgather =>
    obtain ⟨k', hk', hmissing⟩ := hfills.exists_missing (he.meets.isTeam hJ).nodup hgather
    exact hmissing (hall k' (hlt k' hk'))
  | complete _ _ _ hr =>
    rcases hr with hr | ⟨-, values, t, ht, -⟩
    · rw [hr] at hpending
      cases hpending
    · rw [works, hrequests] at ht
      cases ht

theorem Reaches.synced (hJ : J.IsWellFormed) (hs : J.Reaches s) (h : s.IsIdle)
    (hfail : ∀ c e, .ended c (.error e) ∉ s.log) :
    J.Ledger s.scene ∧ s.scene.Orderly J.plan ∧ J.Synced s.scene := by
  obtain ⟨hreach, -, hscenes⟩ := hs.course hJ
  rw [hJ.ready.scene_eq] at hscenes
  obtain ⟨hl, ho, hcourse⟩ := Job.course hJ hscenes
  exact ⟨hl, ho, hcourse.resolve_right (not_failing h hreach.sound hfail)⟩

/-- In a job at rest every operation of every host has ended well, if none has failed. -/
theorem Reaches.ended (hJ : J.IsWellFormed) (hs : J.Reaches s) (h : s.IsIdle)
    (hfail : ∀ c e, .ended c (.error e) ∉ s.log) (hdropped : ∀ c, .dropped c ∉ s.log) (i : Nat)
    (hi : i < J.ops.length) : ∀ k < J.replicas, .ended (key k i) (.ok ()) ∈ s.log := by
  have hsound := (hs.course hJ).1.sound
  obtain ⟨hl, -, hsynced⟩ := hs.synced hJ h hfail
  induction i using Nat.strong_induction_on with
  | _ i ih =>
    -- every host has done all that comes before, so it has launched the operation
    have hnow : ∀ k < J.replicas, .launched (key k i) ∈ s.log ∧ ((∃ o, .ended (key k i) o ∈ s.log) ∨
        ∃ y, s.world.call? (key k i) = some y ∧ y.progress = .awaited) := fun k hk => by
      have hhost : J.world.hosts[k]? = some J.world.hosts[k] := Array.getElem?_eq_getElem hk
      have hlength : i < J.world.hosts[k].program.ops.length := by
        rw [hJ.program _ (Array.getElem_mem hk), List.length_map]
        exact hi
      exact h.ended_or_awaited hsound (hs.begun hJ h hhost) (fun j => hdropped _) hlength
        fun j hj => ih j hj (Nat.lt_trans hj hi) k hk
    intro k hk
    rcases (hnow k hk).2 with ⟨o, ho⟩ | ⟨y, hy, hawaited⟩
    · cases o with
      | ok u => exact ho
      | error e => exact (hfail _ e ho).elim
    · have hprogress : s.scene.progress (key k i) = some .awaited := by
        rw [← hawaited]
        exact congrArg (Option.map Machine.Call.progress) hy
      exact (hsynced.not_awaited hJ hl (requests_eq_nil h) (fun k hk => (hnow k hk).1)
        hprogress).elim

/-- When all members of all teams have launched their collectives, no room is in use. -/
theorem Synced.pendingGroups_eq_zero {x : Scene Platform Work} (hs : J.Synced x)
    (hJ : J.IsWellFormed) (hall : ∀ i < J.ops.length, ∀ k < J.replicas, key k i ∈ x.launched)
    (kind : ExchangeKind) : (x.device.transport.get kind).pendingGroups = 0 := by
  obtain ⟨cell, hx⟩ := hs.exchanges
  have hnone : ∀ room, (x.device.transport.get kind).group? room = none := fun room => by
    by_contra hne
    obtain ⟨G, hG⟩ := Option.ne_none_iff_exists'.1 hne
    obtain ⟨i, op, g, hm, rfl, rfl⟩ := hx.homed kind room G hG
    cases hx.phase i op g hm with
    | vacant hgroup | complete hgroup =>
      rw [hgroup] at hG
      cases hG
    | gathering _ _ hfills _ hgather =>
      obtain ⟨k, hk, hmissing⟩ := hfills.exists_missing (hm.isTeam hJ).nodup hgather
      obtain ⟨⟨info, hi⟩, -⟩ := id hm
      have hlt : i < J.ops.length := (List.getElem?_eq_some_iff.1 hi).1
      exact hmissing (hall i hlt k ((hm.isTeam hJ).lt k hk))
  exact Assoc.size_eq_zero hnone

/-- The program of a job, executed by its hosts in any interleaving, does not get stuck, and its
result does not depend on the interleaving. -/
theorem no_deadlock (hJ : J.IsWellFormed) : ∃ arenas : Nat → Arena, ∀ s, J.Reaches s → s.IsIdle →
    (∀ c e, .ended c (.error e) ∉ s.log) → (∀ c, .dropped c ∉ s.log) →
      (∀ h < J.replicas, s.world.outcome? h 0 = some (.ok ())) ∧
      (∀ kind, (s.world.device.transport.get kind).pendingGroups = 0) ∧
      ∀ h < J.replicas, s.world.device.arenaOf h = arenas h := by
  refine ⟨J.lockstep J.ops.length, fun s hs h hfail hdropped => ?_⟩
  have hreach := (hs.course hJ).1
  obtain ⟨-, ho, hsynced⟩ := hs.synced hJ h hfail
  have hended := hs.ended hJ h hfail hdropped
  refine ⟨fun k hk => ?_, hsynced.pendingGroups_eq_zero hJ fun i hi k hk => ho.ended _ _ (hended i hi k hk),
    fun k hk => (hsynced.arenas k hk).eq_lockstep fun i hi => isDone_of_ended ho (hended i hi k hk)⟩
  have hhost : J.world.hosts[k]? = some J.world.hosts[k] := Array.getElem?_eq_getElem hk
  refine hreach.outcome rfl (h.resolved hreach.sound (hs.begun hJ h hhost) fun j hj => ?_)
  rw [hJ.program _ (Array.getElem_mem hk), List.length_map] at hj
  exact hended j hj k hk

theorem Reaches.act (hs : J.Reaches s) (i : Nat) : J.Reaches (s.act Platform.backend i) := by
  rcases Crew.act_cases Platform.backend s i with heq | hm
  · rwa [heq]
  · exact hs.tail ⟨.act i, trivial, hm⟩

theorem Reaches.acts (hs : J.Reaches s) (order : List Nat) :
    J.Reaches (order.foldl (fun s i => s.act Platform.backend i) s) := by
  induction order generalizing s with
  | nil => exact hs
  | cons i order ih => exact ih (hs.act i)

def twin (h : Nat) : HostState where
  arena := ⟨#[[0, 0, 0, 0], [0, 0, 0, 0, 0, 0, 0, 0]]⟩
  context := { collective := some ⟨⟨1⟩, Int.ofNat h, ⟨Int.ofNat h⟩, ⟨2, 1, [⟨0⟩, ⟨1⟩]⟩⟩ }

def rollCall : List (OpInfo × Primitive) :=
  [({ name := "id" }, .placeId .replica ⟨0, 0, 4⟩),
    ({ name := "gather" }, .collective
      ⟨.allGather, 0, [[1, 0]], ⟨0, 0, 4⟩, ⟨1, 0, 8⟩, ⟨.communicator, 0⟩⟩)]

/-- Two replicas, of which one has a runner. -/
def twins : Job where
  world :=
    { device := { hosts := #[twin 0, twin 1], transport := .ofTimeout 5000 }
      hosts := #[{ program := { ops := rollCall.map fun op => .leaf op.1 op.2 } },
        { program := { ops := rollCall.map fun op => .leaf op.1 op.2 }, runner := some 0 }]
      runners := #[.inline] }
  ops := rollCall
  run := ⟨1⟩
  assignment := ⟨2, 1, [⟨0⟩, ⟨1⟩]⟩

theorem isWellFormed_twins : twins.IsWellFormed := by
  have hcollective : ∀ {i info op}, twins.Joins i info op → i = 1 ∧ op.groups = [[1, 0]] := by
    intro i info op hi
    rcases i with _ | _ | i <;> cases hi
    exact ⟨rfl, rfl⟩
  have hhost : ∀ {h host}, twins.world.device.host? h = some host →
      host = twin h ∧ twins.assignment.devices[h]? = some ⟨Int.ofNat h⟩ := by
    intro h host hh
    rcases h with _ | _ | h <;> cases hh <;> exact ⟨rfl, rfl⟩
  refine ⟨⟨rfl, by simp [twins], by simp [twins, Runner.queued]⟩, rfl, by simp [twins],
    ⟨rfl, rfl, rfl, by decide⟩, fun h host hh => ?_, ⟨5000, rfl⟩, fun i info op hi => ?_,
    fun i j info info' op op' hi hj _ _ => ?_, fun i info op hi hop h host hh => ?_⟩
  · obtain ⟨rfl, hdevice⟩ := hhost hh
    exact ⟨_, rfl, rfl, rfl, hdevice⟩
  · rw [(hcollective hi).2]
    exact .inr (by decide)
  · rw [(hcollective hi).1, (hcollective hj).1]
  · rcases i with _ | _ | i <;> cases hi
    · exact Primitive.isLocal_placeId _ _
    · exact (hop _ rfl).elim

def isGood : Machine.Event → Bool
  | .ended _ (.error _) | .dropped _ => false
  | _ => true

def twinsDone : Crew Primitive Platform Work :=
  ((List.range 60).map (· % 2)).foldl (fun s i => s.act Platform.backend i) twins.crew

theorem reaches_twinsDone : twins.Reaches twinsDone := Reaches.acts .refl _

theorem isIdle_twinsDone : twinsDone.IsIdle := by
  have hthreads : twinsDone.threads.flatten.length = 0 := by decide +kernel
  have hkept : twinsDone.world.kept.length = 0 := by decide +kernel
  exact ⟨List.flatten_eq_nil_iff.1 (List.length_eq_zero_iff.1 hthreads),
    List.length_eq_zero_iff.1 hkept⟩

theorem no_deadlock_twins : ∃ arenas : Nat → Arena,
    (∀ h < twins.replicas, twinsDone.world.outcome? h 0 = some (.ok ())) ∧
    (∀ kind, (twinsDone.world.device.transport.get kind).pendingGroups = 0) ∧
    (∀ h < twins.replicas, twinsDone.world.device.arenaOf h = arenas h) ∧
    arenas 0 = ⟨#[[0, 0, 0, 0], [1, 0, 0, 0, 0, 0, 0, 0]]⟩ := by
  obtain ⟨arenas, harenas⟩ := no_deadlock isWellFormed_twins
  have hall : twinsDone.log.all isGood := by decide +kernel
  obtain ⟨hended, hgroups, hdone⟩ := harenas twinsDone reaches_twinsDone isIdle_twinsDone
    (fun c e hc => by simpa [isGood] using List.all_eq_true.1 hall _ hc)
    (fun c hc => by simpa [isGood] using List.all_eq_true.1 hall _ hc)
  refine ⟨arenas, hended, hgroups, hdone, ?_⟩
  rw [← hdone 0 (by decide)]
  decide +kernel

end Job

end OpFlow
