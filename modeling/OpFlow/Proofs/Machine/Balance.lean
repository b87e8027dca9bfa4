import OpFlow.Proofs.Machine.Credit

/-!
The counters balance. A run that has been resolved with no task lost has counted its start, and each
of its operations either as launched or as skipped; it has counted as failed those calls that ended
with an error, and it skips nothing without a failure. So do all executions of a program together,
on however many hosts, with and without a runner.
-/
namespace OpFlow.Machine

open Finset (range)

variable {α σ ι : Type}

namespace Crew

def fails (s : Crew α σ ι) (c : CallKey) : Bool :=
  s.log.any fun
    | .ended c' (.error _) => c' = c
    | _ => false

def skippedNode (r : RunKey) : Event → Option Nat
  | .skipped c => if c.run = r then some c.node else none
  | _ => none

def launchOf (p : RunKey → Bool) : Event → Option CallKey
  | .launched c => if p c.run then some c else none
  | _ => none

def calls (s : Crew α σ ι) (p : RunKey → Bool) : List CallKey := s.log.filterMap (launchOf p)

def launchWorth (s : Crew α σ ι) : Event → Stats
  | .launched c => { launched := 1, failed := (s.fails c).toNat }
  | _ => 0

variable {s : Crew α σ ι} {r : RunKey} {i j : Nat}

theorem fails_iff {c : CallKey} : s.fails c ↔ s.HasFailed c := by
  simp only [fails, HasFailed, List.any_eq_true]
  constructor
  · rintro ⟨e, he, hc⟩
    split at hc
    case h_1 => exact ⟨_, of_decide_eq_true hc ▸ he⟩
    case h_2 => cases hc
  · rintro ⟨e, he⟩
    exact ⟨_, he, by simp⟩

theorem launches_eq_map (s : Crew α σ ι) (r : RunKey) :
    s.launches r = (s.calls fun r' => r' = r).map CallKey.node := by
  rw [calls, List.map_filterMap, launches]
  refine List.filterMap_congr fun e _ => ?_
  cases e with
  | launched c => by_cases h : c.run = r <;> simp [calledNode, launchOf, h]
  | _ => rfl

/-- Launches and failed launches, counted by their events. -/
theorem total_launchWorth (s : Crew α σ ι) (p : RunKey → Bool) :
    total s.launchWorth (fun e => p e.run) s.log =
      { launched := (s.calls p).length, failed := (s.calls p).countP s.fails } := by
  have haux : ∀ log : List Event, total s.launchWorth (fun e => p e.run) log =
      { launched := (log.filterMap (launchOf p)).length
        failed := (log.filterMap (launchOf p)).countP s.fails } := fun log => by
    induction log with
    | nil => rfl
    | cons e log ih =>
      rw [← List.singleton_append, total_append, ih, total_singleton]
      cases e with
      | launched c =>
        cases hp : p c.run <;> cases hc : s.fails c <;> ext <;>
          simp [Event.run, launchOf, launchWorth, hp, hc, Nat.add_comm]
      | _ => ext <;> simp [launchOf, launchWorth, List.filterMap_cons]
  exact haux s.log

/-- What the events of a run that goes by its graph are worth, by kind. -/
theorem total_price (r : RunKey) (log : List Event) :
    total Event.price (fun e => e.run = r) log =
      { executions := log.count (.started r)
        launched := (log.filterMap (calledNode r)).length
        failed := (log.filterMap (failedNode r)).length
        skipped := (log.filterMap (skippedNode r)).length } := by
  induction log with
  | nil => rfl
  | cons e log ih =>
    rw [← List.singleton_append, total_append, ih, total_singleton]
    cases e with
    | started r' =>
      by_cases h : r' = r <;> ext <;>
        simp [Event.run, Event.price, List.filterMap_cons, calledNode, failedNode, skippedNode, h,
          Nat.add_comm]
    | launched c | skipped c =>
      by_cases h : c.run = r <;> ext <;>
        simp [Event.run, Event.price, List.filterMap_cons, calledNode, failedNode, skippedNode, h,
          Nat.add_comm]
    | ended c o =>
      cases o <;> by_cases h : c.run = r <;> ext <;>
        simp [Event.run, Event.price, List.filterMap_cons, calledNode, failedNode, skippedNode, h,
          Nat.add_comm]
    | dropped | turned | resolved =>
      ext <;> simp [Event.price, List.filterMap_cons, calledNode, failedNode, skippedNode]

theorem skippedNode_eq {e : Event} : skippedNode r e = some j ↔ e = .skipped ⟨r, j⟩ := by
  cases e with
  | skipped c =>
    obtain ⟨r', j'⟩ := c
    simp [skippedNode]
  | _ => simp [skippedNode]

theorem count_skips : (s.log.filterMap (skippedNode r)).count j = s.log.count (.skipped ⟨r, j⟩) := by
  have h := count_filterMap_eq (skippedNode r) some (x := j) (y := Event.skipped ⟨r, j⟩)
    (fun e => by rw [skippedNode_eq, Option.some.injEq]) s.log
  rwa [List.filterMap_some] at h

theorem length_eq_sum_count {n : Nat} {xs : List Nat} (h : ∀ x ∈ xs, x < n) :
    xs.length = ∑ j ∈ range n, xs.count j := by
  have hsum := Multiset.sum_count_eq_card (s := range n) (m := (xs : Multiset Nat)) fun x hx =>
    Finset.mem_range.2 (h x hx)
  simpa using hsum.symm

variable [Leaf α] {b : Backend α σ ι} {region : Program α} {o : Outcome}

theorem RunSound.exists_weight (h : s.RunSound r) (j : Nat) :
    ∃ x : NodeState, ∀ m, m.isFixed → (s.view r).marks j m = x.weight m := by
  cases h with
  | idle hv => exact ⟨.waiting, fun m _ => hv.count _ (by simp)⟩
  | empty hv => exact ⟨.waiting, fun m _ => hv.count _ (by simp) (by simp) (by simp)⟩
  | ordered hv => exact ⟨_, (hv.shown j).fixed⟩
  | scheduled hv => exact ⟨_, (hv.shown j).fixed⟩

/-- The failures of a run are those of its launches that ended with an error. -/
theorem Sound.length_failures (hs : s.Sound) (r : RunKey) :
    (s.log.filterMap (failedNode r)).length = (s.calls fun r' => r' = r).countP s.fails := by
  have hmem : ∀ {j}, j ∈ s.log.filterMap (failedNode r) ↔ s.HasFailed ⟨r, j⟩ := fun {j} => by
    rw [List.mem_filterMap]
    constructor
    · rintro ⟨ev, hev, hnode⟩
      obtain ⟨e, rfl⟩ := failedNode_eq.1 hnode
      exact ⟨e, hev⟩
    · rintro ⟨e, he⟩
      exact ⟨_, he, failedNode_eq.2 ⟨e, rfl⟩⟩
  have hfailures : (s.log.filterMap (failedNode r)).Nodup := List.nodup_iff_count_le_one.2 fun j => by
    by_cases hj : j ∈ s.log.filterMap (failedNode r)
    · obtain ⟨e, he⟩ := hmem.1 hj
      rw [hs.count_failures he]
    · rw [List.count_eq_zero_of_not_mem hj]
      omega
  have hlaunches : (s.launches r).Nodup := List.nodup_iff_count_le_one.2 fun j => by
    obtain ⟨x, hx⟩ := (hs.run r).exists_weight j
    rw [count_launches, ← marks_launched, hx .launched rfl]
    exact x.weight_launched_le
  have hperm : (s.log.filterMap (failedNode r)).Perm
      ((s.launches r).filter fun j => s.fails ⟨r, j⟩) :=
    (List.perm_ext_iff_of_nodup hfailures (hlaunches.filter _)).2 fun j => by
      rw [hmem, List.mem_filter, mem_launches, fails_iff]
      exact ⟨fun ⟨e, he⟩ => ⟨hs.launched_of_ended he, e, he⟩, And.right⟩
  rw [hperm.length_eq, ← List.countP_eq_length_filter, launches_eq_map, List.countP_map]
  refine List.countP_congr fun c hc => ?_
  obtain ⟨e, -, hlaunch⟩ := List.mem_filterMap.1 hc
  obtain rfl : c.run = r := by
    cases e <;> simp [launchOf] at hlaunch
    exact hlaunch.2 ▸ hlaunch.1
  rfl

end Crew

/-- Counters that balance: of so many runs, of which so many in order, each operation was launched
or skipped, what was launched and failed is what the launches say, and nothing was skipped unless
something has failed. -/
structure Balanced (length : Nat) (x : Stats) (runs inOrder : Nat) (launches : Stats) : Prop where
  executions : x.executions = runs
  sequential : x.sequential = inOrder
  launched : x.launched = launches.launched
  failed : x.failed = launches.failed
  covered : x.launched + x.skipped = runs * length
  caused : 0 < x.skipped → 0 < x.failed

namespace Balanced

variable {length : Nat} {x x' y y' : Stats} {m m' n n' : Nat}

theorem zero (length : Nat) : Balanced length 0 0 0 0 :=
  ⟨rfl, rfl, rfl, rfl, (Nat.zero_mul _).symm, nofun⟩

theorem add (h : Balanced length x n m y) (h' : Balanced length x' n' m' y') :
    Balanced length (x + x') (n + n') (m + m') (y + y') where
  executions := congrArg₂ _ h.executions h'.executions
  sequential := congrArg₂ _ h.sequential h'.sequential
  launched := congrArg₂ _ h.launched h'.launched
  failed := congrArg₂ _ h.failed h'.failed
  covered := by
    have := h.covered
    have := h'.covered
    rw [Stats.launched_add, Stats.skipped_add, Nat.add_mul]
    omega
  caused := by
    have := h.caused
    have := h'.caused
    rw [Stats.skipped_add, Stats.failed_add]
    omega

theorem sum {β : Type} {K : Finset β} {x y : β → Stats} {n m : β → Nat}
    (h : ∀ k ∈ K, Balanced length (x k) (n k) (m k) (y k)) :
    Balanced length (∑ k ∈ K, x k) (∑ k ∈ K, n k) (∑ k ∈ K, m k) (∑ k ∈ K, y k) := by
  classical
  induction K using Finset.induction_on with
  | empty => exact .zero length
  | insert k K hk ih =>
    simp only [Finset.sum_insert hk]
    exact (h k (Finset.mem_insert_self ..)).add
      (ih fun k' hk' => h k' (Finset.mem_insert_of_mem hk'))

end Balanced

def RunKey.isOn (r : RunKey) (K : Finset Nat) : Bool := r.scope.isEmpty && decide (r.host ∈ K)

theorem sum_total (worth : Event → Stats) (K : Finset Nat) (log : List Event) :
    ∑ k ∈ K, total worth (fun e => e.run.isOutermost k) log =
      total worth (fun e => e.run.isOn K) log := by
  induction log with
  | nil => simp
  | cons e log ih =>
    have hone : ∑ k ∈ K, total worth (fun e => e.run.isOutermost k) [e] =
        total worth (fun e => e.run.isOn K) [e] := by
      simp only [total_singleton, RunKey.isOutermost, RunKey.isOn]
      cases e.run.scope.isEmpty <;> simp
    rw [← List.singleton_append, total_append, ← ih, ← hone, ← Finset.sum_add_distrib]
    exact Finset.sum_congr rfl fun k _ => total_append ..

def World.countersOf (w : World α σ ι) (K : Finset Nat) : Stats := ∑ k ∈ K, w.counters k

namespace Crew

variable [Leaf α] {b : Backend α σ ι} {s : Crew α σ ι} {r : RunKey} {k : Nat} {region : Program α}
  {o : Outcome} {cs : List (Choice σ ι)} {w : World α σ ι}

/-- A run in order that has been resolved has balanced counters. -/
theorem Sequences.balanced (h : Reachable b s) (hr : s.Sequences r region) (hne : region.ops ≠ [])
    (ho : .resolved r o ∈ s.log) : Balanced region.ops.length (tally region r s.log) 1 1
      (total s.launchWorth (fun e => e.run = r) s.log) := by
  have hpos := List.length_pos_iff.2 hne
  have hevents := tally_eq region r s.log
  have hlaunches := s.total_launchWorth fun r' => r' = r
  refine ⟨?_, ?_, ?_, ?_, ?_, ?_⟩
  · cases hr.concluded h ho with
    | well _ _ htally => rw [htally, Nat.min_eq_left hpos]
    | badly _ _ _ _ htally => rw [htally]
  · cases hr.concluded h ho with
    | well _ _ htally => rw [htally, Nat.min_eq_left hpos]
    | badly _ _ _ _ htally => rw [htally]
  · rw [hevents, hlaunches]
    change (s.launches r).length = _
    rw [launches_eq_map, List.length_map]
  · rw [hevents, hlaunches]
    exact h.sound.length_failures r
  · cases hr.concluded h ho with
    | well _ _ htally => simp [htally]
    | badly _ _ _ _ htally =>
      rw [htally]
      dsimp only
      omega
  · cases hr.concluded h ho with
    | well _ _ htally => simp [htally]
    | badly _ _ _ _ htally => simp [htally]

/-- A run by its graph that has been resolved has balanced counters, if no task of it was lost. -/
theorem Schedules.balanced (h : Reachable b s) (hr : s.Schedules r region)
    (hkept : ∀ j, .dropped ⟨r, j⟩ ∉ s.log) (ho : .resolved r o ∈ s.log) :
    Balanced region.ops.length (total Event.price (fun e => e.run = r) s.log) 1 0
      (total s.launchWorth (fun e => e.run = r) s.log) := by
  obtain ⟨st, t, holders, hv, hends⟩ := h.exists_comesTo hr hkept ho
  have hlaunches := s.total_launchWorth fun r' => r' = r
  rw [total_price, hlaunches]
  refine ⟨(s.count_view_of_event rfl).symm.trans hv.started, rfl, ?_, h.sound.length_failures r, ?_,
    fun hskipped => ?_⟩
  · change (s.launches r).length = _
    rw [launches_eq_map, List.length_map]
  · -- each node was launched or skipped, so the two lists are as long as there are nodes
    have hlt : ∀ j, (st j).isDone → j < region.ops.length := fun j hj =>
      hv.follows.lt_length (by cases hx : st j <;> simp_all [NodeState.isDone, NodeState.isWaiting])
    have hcalled : ∀ j ∈ s.launches r, j < region.ops.length := fun j hj => by
      obtain ⟨x, hx⟩ := (launched_mem_iff hv j).1 (mem_launches.1 hj)
      exact hlt j (by simp [hx, NodeState.isDone])
    have hpassed : ∀ j ∈ s.log.filterMap (skippedNode r), j < region.ops.length := fun j hj => by
      obtain ⟨e, he, hnode⟩ := List.mem_filterMap.1 hj
      obtain rfl := skippedNode_eq.1 hnode
      exact hlt j (by simp [(skipped_mem_iff hv j).1 he, NodeState.isDone])
    change (s.launches r).length + (s.log.filterMap (skippedNode r)).length = _
    rw [length_eq_sum_count hcalled, length_eq_sum_count hpassed, ← Finset.sum_add_distrib]
    refine (Finset.sum_congr rfl fun j hj => ?_).trans (by simp : ∑ j ∈ range region.ops.length, 1 = _)
    rw [count_launches, count_skips, ← marks_launched, ← marks_skipped]
    exact hv.marks_called_of_isDone (hends.done j (Finset.mem_range.1 hj))
  · obtain ⟨j, hj⟩ := List.exists_mem_of_length_pos hskipped
    obtain ⟨e, he, hnode⟩ := List.mem_filterMap.1 hj
    obtain rfl := skippedNode_eq.1 hnode
    obtain ⟨i, e', -, hi⟩ := hv.follows.exists_failed_of_isSkipped (j := j)
      (by rw [(skipped_mem_iff hv j).1 he]; rfl)
    exact List.length_pos_of_mem
      (List.mem_filterMap.2 ⟨_, (ended_mem_iff hv i _).2 hi, failedNode_eq.2 ⟨e', rfl⟩⟩)

theorem Reachable.begun_of_resolved (h : Reachable b s) (hr : r.scope = [])
    (hprogram : s.world.program? r.host = some region) (ho : .resolved r o ∈ s.log) :
    (r, region) ∈ s.begun := by
  obtain ⟨region', hbegun⟩ := h.sound.exists_begun ho
  have hsame := h.program (.inl hbegun) hr
  rw [hprogram] at hsame
  exact Option.some.inj hsame ▸ hbegun

theorem Sound.run?_of_resolved (hs : s.Sound) (ho : .resolved r o ∈ s.log) :
    s.world.run? r = none := by
  have hpos : 0 < (s.view r).count (.resolved o) := by
    rw [count_resolved]
    exact List.count_pos_iff.2 ho
  cases hs.run r with
  | idle hv => exact hv.run
  | empty hv => exact hv.run
  | ordered hv => exact hv.dead o hpos
  | scheduled hv => exact hv.dead o hpos

omit [Leaf α] in
theorem execution_lt_of_knows {e : Event} (hk : e.run.isOutermost k) (h : w.Knows e.run) :
    e.run.execution < w.executionsOn k := by
  rw [RunKey.eq_of_isOutermost hk] at h
  exact World.knows_iff.1 h

theorem Sound.total_launchWorth_eq_sum (hs : s.Sound) (k : Nat) :
    total s.launchWorth (fun e => e.run.isOutermost k) s.log =
      ∑ e ∈ range (s.world.executionsOn k),
        total s.launchWorth (fun e' => e'.run = ⟨k, e, []⟩) s.log := by
  refine total_eq_sum _ k fun e he hk hworth => execution_lt_of_knows hk (hs.known _ ?_)
  cases e with
  | launched => exact hs.hasBegun_of_sign he rfl (by simp)
  | started | skipped | dropped | ended | turned | resolved => exact absurd rfl hworth

/-- The counters of a host that executes its program in order balance. -/
theorem Follows.balanced_of_inOrder (hw : w.IsFresh) (hf : Follows b { world := w } cs s)
    (hk : w.profile k = some (region, 0)) (ho : s.InOrder k region) (hne : region.ops ≠ [])
    (hdone : ∀ e < s.world.executionsOn k, (s.world.outcome? k e).isSome) :
    Balanced region.ops.length (s.world.counters k) (s.world.executionsOn k)
      (s.world.executionsOn k) (total s.launchWorth (fun e => e.run.isOutermost k) s.log) := by
  obtain ⟨h, new, hlog, hall⟩ := hf.profile (.fresh hw)
  have hs := h.sound
  obtain rfl : new = s.log := by simpa using hlog.symm
  have hcounters : s.world.counters k = gain region k s.log := by
    rw [World.counters, (hall k region ho).2, hk]
    exact zero_add _
  rw [hcounters, hs.total_launchWorth_eq_sum k, gain_eq_sum region k fun e he hrun hworth =>
    execution_lt_of_knows hrun (hs.known _ (hs.hasBegun_of_worth he hworth))]
  have hsum := Balanced.sum (K := range (s.world.executionsOn k))
    (n := fun _ => 1) (m := fun _ => 1) fun e he => by
      obtain ⟨o, ho'⟩ := Option.isSome_iff_exists.1 (hdone e (Finset.mem_range.1 he))
      have hresolved := h.resolved_of_outcome ho'
      have hbegun := h.begun_of_resolved rfl ho.program hresolved
      exact Sequences.balanced h ⟨hbegun, ho.ordered⟩ hne hresolved
  simpa using hsum

/-- The counters of a host that executes its program by its graph balance. -/
theorem Follows.balanced_of_byGraph (hw : w.IsFresh) (hf : Follows b { world := w } cs s)
    (hk : w.profile k = some (region, 0)) (hg : s.ByGraph k region)
    (hkept : ∀ c, c.run.isOutermost k → .dropped c ∉ s.log)
    (hdone : ∀ e < s.world.executionsOn k, (s.world.outcome? k e).isSome) :
    Balanced region.ops.length (s.world.counters k) (s.world.executionsOn k) 0
      (total s.launchWorth (fun e => e.run.isOutermost k) s.log) := by
  have h := hf.reachable hw
  have hs := h.sound
  have hresolved : ∀ e < s.world.executionsOn k, ∃ o, .resolved ⟨k, e, []⟩ o ∈ s.log := fun e he =>
    let ⟨o, ho⟩ := Option.isSome_iff_exists.1 (hdone e he)
    ⟨o, h.resolved_of_outcome ho⟩
  have hcounters : s.world.counters k = earned k s.log := by
    have hcredit := hf.credit hw hg hkept
    have howed : ∑ e ∈ range (s.world.executionsOn k), s.world.owed ⟨k, e, []⟩ = 0 :=
      Finset.sum_eq_zero fun e he =>
        let ⟨o, ho⟩ := hresolved e (Finset.mem_range.1 he)
        World.owed_eq (hs.run?_of_resolved ho)
    rw [World.credit, howed, show w.counters k = 0 by rw [World.counters, hk]; rfl, zero_add]
      at hcredit
    exact (add_zero _).symm.trans hcredit
  rw [hcounters, hs.total_launchWorth_eq_sum k, earned, total_eq_sum _ k fun e he hrun hworth => ?_]
  · have hsum := Balanced.sum (K := range (s.world.executionsOn k))
      (n := fun _ => 1) (m := fun _ => 0) fun e he => by
        obtain ⟨o, ho⟩ := hresolved e (Finset.mem_range.1 he)
        have hbegun := h.begun_of_resolved rfl hg.program ho
        exact Schedules.balanced h ⟨hbegun, hg.concurrent, hg.unordered⟩
          (fun j => hkept _ (by simp [RunKey.isOutermost])) ho
    simpa using hsum
  · refine execution_lt_of_knows hrun (hs.known _ ?_)
    cases e with
    | started | launched | skipped | ended => exact hs.hasBegun_of_sign he rfl (by simp)
    | dropped | turned | resolved => exact absurd rfl hworth

theorem Follows.runner (hw : w.IsFresh) (hf : Follows b { world := w } cs s) :
    s.world.runnerOf? = w.runnerOf? := by
  induction hf with
  | nil => rfl
  | snoc hf hm ih => exact (hm.runner (hf.reachable hw).sound).trans ih

def timesExecuted (k : Nat) (cs : List (Choice σ ι)) : Nat :=
  cs.countP fun
    | .execute k' => k' = k
    | _ => false

theorem Move.executionsOn {t : Crew α σ ι} {ch : Choice σ ι} (hm : Move b ch s t) (hs : s.Sound)
    (k : Nat) : t.world.executionsOn k = s.world.executionsOn k + timesExecuted k [ch] := by
  cases hm with
  | @act _ i item rest w hi hw =>
    obtain ⟨items, tasks, run, call, hb, -⟩ := World.step_cases rfl hw fun r region hr =>
      hs.known r (hasBegun_of_head (hr ▸ hi))
    exact World.executionsOn_eq hb.knows
  | take => rfl
  | @drop _ _ _ _ task => cases task <;> rfl
  | outside => rfl
  | @execute _ i h hi =>
    refine (World.executionsOn_push s.world i k (by simp [hi])).trans ?_
    simp [timesExecuted, List.countP_cons]

theorem Follows.executionsOn (hw : w.IsFresh) (hf : Follows b { world := w } cs s) (k : Nat) :
    s.world.executionsOn k = timesExecuted k cs := by
  induction hf with
  | nil =>
    unfold World.executionsOn
    cases hx : w.hosts[k]? with
    | none => rfl
    | some x => simp [hw.executions x (Array.mem_of_getElem? hx), timesExecuted]
  | snoc hf hm ih =>
    rw [hm.executionsOn (hf.reachable hw).sound, ih, timesExecuted, timesExecuted, timesExecuted,
      List.countP_append]

/-- The counters of a program balance, however often it has been executed on whichever hosts, some
with a runner and some without, when all executions have been resolved and no task of their outermost
runs was lost. It has been executed as often as it was asked for, and in order as often as there was
no runner or its graph is a chain; every operation of every execution was launched or skipped; as
many operations have failed as launches have ended with an error, so not more than were launched; and
nothing is skipped where nothing has failed. -/
theorem Follows.counters_balance (hw : w.IsFresh) (hf : Follows b { world := w } cs s)
    {K : Finset Nat} (hne : region.ops ≠ []) (hK : ∀ k ∈ K, w.profile k = some (region, 0))
    (hkept : ∀ c, c.run.isOn K → .dropped c ∉ s.log)
    (hdone : ∀ k ∈ K, ∀ e < s.world.executionsOn k, (s.world.outcome? k e).isSome) :
    (s.world.countersOf K).executions = ∑ k ∈ K, timesExecuted k cs ∧
    (s.world.countersOf K).sequential = ∑ k ∈ K,
      (if w.runnerOf? k = none ∨ region.graph.isSequential then timesExecuted k cs else 0) ∧
    (s.world.countersOf K).launched + (s.world.countersOf K).skipped =
      (s.world.countersOf K).executions * region.ops.length ∧
    (s.world.countersOf K).launched = (s.calls fun r => r.isOn K).length ∧
    (s.world.countersOf K).failed = (s.calls fun r => r.isOn K).countP s.fails ∧
    (s.world.countersOf K).failed ≤ (s.world.countersOf K).launched ∧
    (0 < (s.world.countersOf K).skipped → 0 < (s.world.countersOf K).failed) := by
  have hrunner := hf.runner hw
  have hhost : ∀ k ∈ K, Balanced region.ops.length (s.world.counters k) (timesExecuted k cs)
      (if w.runnerOf? k = none ∨ region.graph.isSequential then timesExecuted k cs else 0)
      (total s.launchWorth (fun e => e.run.isOutermost k) s.log) := fun k hk => by
    have hprogram : s.world.program? k = some region := by
      have hprofile := hK k hk
      rw [hf.program?]
      unfold World.profile at hprofile
      unfold World.program?
      cases hx : w.hosts[k]? with
      | none => simp [hx] at hprofile
      | some x =>
        simp only [hx, Option.map_some, Option.some.injEq, Prod.mk.injEq] at hprofile
        simp [hprofile.1]
    rw [← hf.executionsOn hw k]
    by_cases hin : w.runnerOf? k = none ∨ region.graph.isSequential
    · rw [if_pos hin]
      refine hf.balanced_of_inOrder hw (hK k hk) ⟨hprogram, fun hsome => ?_⟩ hne (hdone k hk)
      rw [hrunner] at hsome
      exact hin.resolve_left (Option.isSome_iff_ne_none.1 hsome)
    · rw [if_neg hin]
      obtain ⟨hsome, hunordered⟩ := not_or.1 hin
      refine hf.balanced_of_byGraph hw (hK k hk)
        ⟨hprogram, hrunner ▸ Option.isSome_iff_ne_none.2 hsome, by simpa using hunordered⟩
        (fun c hc => hkept c ?_) (hdone k hk)
      rw [RunKey.eq_of_isOutermost hc]
      simpa [RunKey.isOn] using hk
  have hall := Balanced.sum hhost
  rw [sum_total, total_launchWorth s fun r => r.isOn K] at hall
  refine ⟨hall.executions, hall.sequential, ?_, hall.launched, hall.failed, ?_, hall.caused⟩
  · exact hall.executions.symm ▸ hall.covered
  · exact hall.failed.trans_le (List.countP_le_length.trans_eq hall.launched.symm)

def fork : Program Primitive where
  ops := [.leaf { name := "a" } (.scripted .copy { buffers := [.write ⟨0, 0, 1⟩] } .succeed),
    .leaf { name := "b" } (.scripted .copy { buffers := [.read ⟨0, 0, 1⟩] } .succeed),
    .leaf { name := "c" } (.scripted .copy {} .succeed)]

/-- One program on a host with a runner and on one without. -/
def shared : World Primitive Unit Unit :=
  { alone [] with hosts := #[{ program := fork, runner := some 0 }, { program := fork }] }

def sharedBegun : Crew Primitive Unit Unit :=
  ((({ world := shared } : Crew _ _ _).execute 0).execute 1).execute 0

def sharedDone : Crew Primitive Unit Unit :=
  (Crew.act (.ending firstFails) 1)^[20] ((Crew.act (.ending firstFails) 2)^[20]
    ((Crew.act (.ending firstFails) 0)^[20] sharedBegun))

theorem isFresh_shared : shared.IsFresh :=
  ⟨rfl, by simp [shared], by simp [shared, alone, Runner.queued]⟩

theorem follows_sharedDone : ∃ cs, Follows (.ending firstFails) { world := shared }
    ([.execute 0, .execute 1, .execute 0] ++ cs) sharedDone ∧ ∀ ch ∈ cs, ∃ i, ch = .act i := by
  have hbegun : Follows (.ending firstFails) { world := shared }
      [.execute 0, .execute 1, .execute 0] sharedBegun :=
    ((@Follows.nil _ _ _ _ (.ending firstFails) { world := shared }).snoc (.execute rfl)).snoc
      (.execute rfl) |>.snoc (.execute rfl)
  obtain ⟨cs, h, hcs⟩ := hbegun.acts 0 20
  obtain ⟨cs', h', hcs'⟩ := h.acts 2 20
  obtain ⟨cs'', h'', hcs''⟩ := h'.acts 1 20
  rw [List.append_assoc, List.append_assoc] at h''
  refine ⟨_, h'', fun ch hch => ?_⟩
  rcases List.mem_append.1 hch with hch | hch
  · exact ⟨_, hcs ch hch⟩
  · rcases List.mem_append.1 hch with hch | hch
    · exact ⟨_, hcs' ch hch⟩
    · exact ⟨_, hcs'' ch hch⟩

theorem counters_balance_shared :
    (sharedDone.world.countersOf {0, 1}).executions = 3 ∧
    (sharedDone.world.countersOf {0, 1}).sequential = 1 ∧
    (sharedDone.world.countersOf {0, 1}).launched +
      (sharedDone.world.countersOf {0, 1}).skipped = 9 ∧
    0 < (sharedDone.world.countersOf {0, 1}).skipped ∧
    (sharedDone.world.countersOf {0, 1}).failed =
      (sharedDone.calls fun r => r.isOn {0, 1}).countP sharedDone.fails ∧
    0 < (sharedDone.world.countersOf {0, 1}).failed := by
  obtain ⟨cs, hf, hcs⟩ := follows_sharedDone
  have htimes : ∀ k, timesExecuted k ([.execute 0, .execute 1, .execute 0] ++ cs) =
      timesExecuted (σ := Unit) (ι := Unit) k [.execute 0, .execute 1, .execute 0] := fun k => by
    have hzero : timesExecuted k cs = 0 := List.countP_eq_zero.2 fun ch hch => by
      obtain ⟨i, rfl⟩ := hcs ch hch
      simp
    rw [timesExecuted, List.countP_append, ← timesExecuted, ← timesExecuted, hzero, Nat.add_zero]
  have hk : ∀ {p : Nat → Prop}, p 0 → p 1 → ∀ k ∈ ({0, 1} : Finset Nat), p k :=
    fun {p} h₀ h₁ k hk => by
      rcases Finset.mem_insert.1 hk with rfl | hk
      · exact h₀
      · exact Finset.mem_singleton.1 hk ▸ h₁
  have hkept : ∀ c : CallKey, c.run.isOn {0, 1} → .dropped c ∉ sharedDone.log :=
    fun c _ => not_dropped_of_all (by decide +kernel) c
  have hdone : ∀ k ∈ ({0, 1} : Finset Nat), ∀ e < sharedDone.world.executionsOn k,
      (sharedDone.world.outcome? k e).isSome := hk (by decide +kernel) (by decide +kernel)
  have hprofile : ∀ k ∈ ({0, 1} : Finset Nat), shared.profile k = some (fork, 0) := hk rfl rfl
  have hskipped : 0 < (sharedDone.world.countersOf {0, 1}).skipped := by decide +kernel
  obtain ⟨hexecutions, hsequential, hcovered, -, hfailed, -, hcaused⟩ :=
    hf.counters_balance (K := {0, 1}) isFresh_shared (by simp [fork]) hprofile hkept hdone
  simp only [htimes] at hexecutions hsequential
  have hthree : (sharedDone.world.countersOf {0, 1}).executions = 3 :=
    hexecutions.trans (by decide)
  rw [hthree] at hcovered
  exact ⟨hthree, hsequential.trans (by decide +kernel), hcovered, hskipped, hfailed,
    hcaused hskipped⟩

end Crew

end OpFlow.Machine
