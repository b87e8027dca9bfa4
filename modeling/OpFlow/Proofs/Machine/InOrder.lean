import Mathlib.Algebra.GroupWithZero.Nat
import OpFlow.Proofs.Machine.Containment
import OpFlow.Proofs.Machine.Flight
import OpFlow.Proofs.Machine.Rest
import OpFlow.Proofs.Machine.Tally

/-!
A run that takes its operations in order does so whether they end at once or later. It calls them in
the order of the program, each once and only after the one before it has ended well; it ends once,
well or with the first failure; and it counts what it has called, what has failed and what it never
called. All of this is decided by the operations' own outcomes alone.
-/
namespace OpFlow.Machine

variable {α σ ι : Type}

namespace Crew

/-- A region is executed in order, as this run. -/
structure Sequences [Leaf α] (s : Crew α σ ι) (r : RunKey) (region : Program α) : Prop where
  begun : (r, region) ∈ s.begun
  ordered : (s.world.runnerOf? r.host).isSome → region.graph.isSequential

def calledNode (r : RunKey) : Event → Option Nat
  | .launched c => if c.run = r then some c.node else none
  | _ => none

def failedNode (r : RunKey) : Event → Option Nat
  | .ended c (.error _) => if c.run = r then some c.node else none
  | _ => none

def launches (s : Crew α σ ι) (r : RunKey) : List Nat := s.log.filterMap (calledNode r)

variable {s t : Crew α σ ι} {r : RunKey} {i j : Nat}

theorem calledNode_eq {e : Event} : calledNode r e = some j ↔ e = .launched ⟨r, j⟩ := by
  cases e with
  | launched c =>
    obtain ⟨r', j'⟩ := c
    simp [calledNode]
  | _ => simp [calledNode]

theorem mem_launches : j ∈ s.launches r ↔ .launched ⟨r, j⟩ ∈ s.log := by
  simp [launches, calledNode_eq]

theorem count_launches : (s.launches r).count j = s.log.count (.launched ⟨r, j⟩) := by
  have h := count_filterMap_eq (calledNode r) some (x := j) (y := Event.launched ⟨r, j⟩)
    (fun e => by rw [calledNode_eq, Option.some.injEq]) s.log
  rwa [List.filterMap_some] at h

variable [Leaf α] {b : Backend α σ ι} {region : Program α} {st : Nat → NodeState}
  {fin : Option Outcome} {o : Outcome} {ch : Choice σ ι}

/-- A run that is executed in order is in order as such, or there is nothing to execute. -/
theorem Sequences.cases (h : s.Sequences r region) (hs : s.RunSound r) :
    (s.view r).Empty region ∨ ∃ st fin, (s.view r).Ordered region st fin := by
  have hmem := mem_begun_iff.1 h.begun
  cases hs with
  | idle hv => rw [hv.regions] at hmem; cases hmem
  | @empty region' hv =>
    obtain rfl : region = region' := by simpa [hv.regions] using hmem
    exact .inl hv
  | @ordered region' st fin hv =>
    obtain rfl : region = region' := by simpa [hv.regions] using hmem
    exact .inr ⟨st, fin, hv⟩
  | @scheduled region' st t holders fin hv =>
    obtain rfl : region = region' := by simpa [hv.regions] using hmem
    have hsequential := h.ordered hv.concurrent
    rw [hv.unordered] at hsequential
    cases hsequential

end Crew

namespace RunView.Ordered

variable [Leaf α] {V : RunView α} {region : Program α} {st : Nat → NodeState} {fin : Option Outcome}
  {i j : Nat}

theorem marks_launched_pos (h : V.Ordered region st fin) (hj : 0 < V.marks j .launched) :
    (st j).isWaiting = false ∧ j < region.ops.length := by
  have hwait := NodeState.isWaiting_of_isTaken
    (NodeState.isTaken_of_launched ((h.shown j).fixed .launched rfl ▸ hj))
  exact ⟨hwait, h.follows.lt_length hwait⟩

theorem eq_ended (h : V.Ordered region st fin) (hj : (st j).isWaiting = false) (hij : i < j) :
    st i = .ended (.ok ()) :=
  NodeState.eq_ended_of_endsWith (((h.follows.due j).1 hj).2 i hij)

/-- Where nothing is left to do and not all operations have ended well, one has failed, and all before
it have ended well: the first that has not ended well was called. -/
theorem exists_failed (h : V.Ordered region st fin) (hstill : ∀ j, (st j).isStill)
    (hnot : ¬ ∀ j < region.ops.length, st j = .ended (.ok ())) :
    ∃ i e, i < region.ops.length ∧ (∀ j < i, st j = .ended (.ok ())) ∧ st i = .ended (.error e) ∧
      ∀ j e', st j = .ended (.error e') → j = i := by
  have hex : ∃ i, i < region.ops.length ∧ st i ≠ .ended (.ok ()) := by simpa using hnot
  classical
  obtain ⟨hi, hne⟩ := Nat.find_spec hex
  have hmin : ∀ j < Nat.find hex, st j = .ended (.ok ()) := fun j hj => by
    by_contra hne'
    exact Nat.find_min hex hj ⟨hj.trans hi, hne'⟩
  have hwait : (st (Nat.find hex)).isWaiting = false :=
    (h.follows.due _).2 ⟨hi, fun j hj => by simp [hmin j hj, NodeState.endsWith]⟩
  have htaken := h.follows.taken _ hwait
  have hquiet := hstill (Nat.find hex)
  obtain ⟨e, he⟩ : ∃ e, st (Nat.find hex) = .ended (.error e) := by
    cases hst : st (Nat.find hex) with
    | ended o =>
      cases o with
      | ok => exact absurd hst hne
      | error e => exact ⟨e, rfl⟩
    | _ => simp [hst, NodeState.isTaken, NodeState.isStill] at htaken hquiet
  refine ⟨Nat.find hex, e, hi, hmin, he, fun j e' hj => ?_⟩
  have hwaitj : (st j).isWaiting = false := by rw [hj]; rfl
  rcases Nat.lt_trichotomy j (Nat.find hex) with hlt | heq | hlt
  · rw [hmin j hlt] at hj
    cases hj
  · exact heq
  · rw [h.eq_ended hwaitj hlt] at he
    cases he

end RunView.Ordered

namespace Crew

variable [Leaf α] {b : Backend α σ ι} {s t : Crew α σ ι} {r : RunKey} {region : Program α}
  {st : Nat → NodeState} {fin : Option Outcome} {o : Outcome} {ch : Choice σ ι} {i j : Nat}

theorem ended_mem_iff_ordered (h : (s.view r).Ordered region st fin) (j : Nat) (o : Outcome) :
    .ended ⟨r, j⟩ o ∈ s.log ↔ st j = .ended o := ended_of_shown (h.shown j)

/-- When an operation has been called, all before it have been called and have ended well, and it
was called once. -/
theorem Sequences.of_launched (h : s.Sequences r region) (hs : s.RunSound r)
    (hj : .launched ⟨r, j⟩ ∈ s.log) : j < region.ops.length ∧
      s.log.count (.launched ⟨r, j⟩) = 1 ∧
      ∀ i < j, .launched ⟨r, i⟩ ∈ s.log ∧ .ended ⟨r, i⟩ (.ok ()) ∈ s.log := by
  have hpos : 0 < (s.view r).marks j .launched := by
    rw [marks_launched]
    exact List.count_pos_iff.2 hj
  rcases h.cases hs with hv | ⟨st, fin, hv⟩
  · rw [show (s.view r).marks j .launched = 0 from hv.count _ (by simp) (by simp) (by simp)] at hpos
    cases hpos
  · obtain ⟨hwait, hlt⟩ := hv.marks_launched_pos hpos
    refine ⟨hlt, ?_, fun i hij => ?_⟩
    · have hle := (st j).weight_launched_le
      rw [← (hv.shown j).fixed .launched rfl] at hle
      rw [← marks_launched]
      omega
    · have hended := hv.eq_ended hwait hij
      have hmark := (hv.shown i).fixed .launched rfl
      rw [hended, marks_launched] at hmark
      exact ⟨List.count_pos_iff.1 (by simp [hmark]),
        (ended_mem_iff_ordered hv i _).2 hended⟩

omit [Leaf α] in
theorem eq_of_initial {m : Nat} (hcount : (List.range m ++ [j]).count j = 1)
    (hbelow : ∀ i < j, i ∈ List.range m ++ [j]) : j = m := by
  refine Nat.le_antisymm ?_ ?_
  · by_contra hlt
    have := hbelow m (by omega)
    simp at this
    omega
  · by_contra hlt
    have : 0 < (List.range m).count j := List.count_pos_iff.2 (List.mem_range.2 (by omega))
    rw [List.count_append, List.count_singleton_self] at hcount
    omega

theorem Move.log (hm : Move b ch s t) :
    ∃ events, t.log = s.log ++ events ∧ events.length ≤ 1 ∧ s.begun <+: t.begun := by
  cases hm with
  | @act _ i item rest w hi hw =>
    exact ⟨_, rfl, s.world.length_noted_le item, List.prefix_append ..⟩
  | take => exact ⟨[], (List.append_nil _).symm, by simp, List.prefix_rfl⟩
  | @drop _ _ _ _ task =>
    cases task with
    | visit r' j => exact ⟨[_], rfl, by simp, List.prefix_rfl⟩
    | work => exact ⟨[], (List.append_nil _).symm, by simp, List.prefix_rfl⟩
  | outside change => exact ⟨[], (List.append_nil _).symm, by simp, List.prefix_rfl⟩
  | execute => exact ⟨[], (List.append_nil _).symm, by simp, List.prefix_rfl⟩

theorem Move.runner (hm : Move b ch s t) (hs : s.Sound) :
    t.world.runnerOf? = s.world.runnerOf? := by
  rcases hm.spawned with ⟨i, item, rest, w, hi, hw, rfl⟩ | ⟨tasks, agenda, events, hsp, -⟩
  · obtain ⟨items, tasks, run, call, hb, -⟩ := World.step_cases rfl hw fun r region hr =>
      hs.known r (hasBegun_of_head (hr ▸ hi))
    exact hb.runner
  · exact hsp.runner

/-- The events of the log were noted one after the other. -/
theorem Reachable.noted_at (h : Reachable b s) {pre post : List Event} {e : Event}
    (hlog : s.log = pre ++ e :: post) : ∃ s₁ ch t₁, Reachable b s₁ ∧ Move b ch s₁ t₁ ∧
      s₁.log = pre ∧ t₁.log = pre ++ [e] ∧ t₁.begun <+: s.begun ∧
      t₁.world.runnerOf? = s.world.runnerOf? := by
  induction h generalizing post with
  | fresh => simp at hlog
  | @move s t ch hreach hm ih =>
    obtain ⟨events, hevents, hle, hbegun⟩ := hm.log
    have hrunner := hm.runner hreach.sound
    have hold : ∀ post', s.log = pre ++ e :: post' → ∃ s₁ ch t₁, Reachable b s₁ ∧
        Move b ch s₁ t₁ ∧ s₁.log = pre ∧ t₁.log = pre ++ [e] ∧ t₁.begun <+: t.begun ∧
        t₁.world.runnerOf? = t.world.runnerOf? := fun post' h' => by
      obtain ⟨s₁, ch₁, t₁, hs₁, hm₁, hpre, hlog₁, hbegun₁, hrunner₁⟩ := ih h'
      exact ⟨s₁, ch₁, t₁, hs₁, hm₁, hpre, hlog₁, hbegun₁.trans hbegun, hrunner₁.trans hrunner.symm⟩
    rw [hevents] at hlog
    match events, hle with
    | [], _ => exact hold post (by simpa using hlog)
    | [e'], _ =>
      rcases List.eq_nil_or_concat post with rfl | ⟨post', e'', rfl⟩
      · obtain ⟨rfl, he⟩ := List.append_inj' hlog rfl
        exact ⟨s, ch, t, hreach, hm, rfl, hevents.trans (by rw [he]), List.prefix_rfl, rfl⟩
      · have hsplit : s.log ++ [e'] = (pre ++ e :: post') ++ [e''] := by simpa using hlog
        exact hold post' (List.append_inj' hsplit rfl).1

theorem Sound.region_unique (hs : s.Sound) {region' : Program α} (h : (r, region) ∈ s.begun)
    (h' : (r, region') ∈ s.begun) : region' = region := by
  rw [mem_begun_iff] at h h'
  cases hs.run r with
  | idle hv => rw [hv.regions] at h; cases h
  | empty hv => simp_all [hv.regions]
  | ordered hv => simp_all [hv.regions]
  | scheduled hv => simp_all [hv.regions]

theorem Sound.exists_begun (hs : s.Sound) (ho : .resolved r o ∈ s.log) :
    ∃ region, (r, region) ∈ s.begun := by
  have hmem : ∀ {region}, (s.view r).regions = [region] → ∃ region, (r, region) ∈ s.begun :=
    fun {region} h => ⟨region, mem_begun_iff.2 (by simp [h])⟩
  cases hs.run r with
  | idle hv =>
    have hnone := hv.count (.resolved o) (by simp)
    rw [count_resolved, List.count_eq_zero] at hnone
    exact absurd ho hnone
  | empty hv => exact hmem hv.regions
  | ordered hv => exact hmem hv.regions
  | scheduled hv => exact hmem hv.regions

theorem Sequences.of_prefix (h : s.Sequences r region) (hs : s.Sound) (ht : t.Sound)
    (hbegun : t.begun <+: s.begun) (hrunner : t.world.runnerOf? = s.world.runnerOf?)
    (hj : .launched ⟨r, j⟩ ∈ t.log) : t.Sequences r region := by
  refine ⟨?_, hrunner ▸ h.ordered⟩
  have hpos : 0 < (t.view r).marks j .launched := by
    rw [marks_launched]
    exact List.count_pos_iff.2 hj
  have hregion : ∀ region', (t.view r).regions = [region'] → (r, region) ∈ t.begun :=
    fun region' hregions => by
      have hmem : (r, region') ∈ t.begun := mem_begun_iff.2 (by simp [hregions])
      rwa [hs.region_unique h.begun (hbegun.subset hmem)] at hmem
  cases ht.run r with
  | idle hv =>
    rw [show (t.view r).marks j .launched = 0 from hv.count _ (by simp)] at hpos
    cases hpos
  | empty hv => exact hregion _ hv.regions
  | ordered hv => exact hregion _ hv.regions
  | scheduled hv => exact hregion _ hv.regions

/-- The operations of a run in order are called in the order of the program, each at most once. -/
theorem Reachable.launches_eq (h : Reachable b s) (hr : s.Sequences r region) :
    ∃ m ≤ region.ops.length, s.launches r = List.range m := by
  induction h generalizing region with
  | fresh => cases hr.begun
  | @move s t ch hreach hm ih =>
    have ht := (hreach.move hm).sound
    have hrunner := hm.runner hreach.sound
    obtain ⟨events, hevents, hle, -⟩ := hm.log
    have hcalls : t.launches r = s.launches r ++ events.filterMap (calledNode r) := by
      rw [launches, hevents, List.filterMap_append]
      rfl
    by_cases hbegun : (r, region) ∈ s.begun
    · obtain ⟨m, hm, hold⟩ := ih ⟨hbegun, fun hsome => hr.ordered (hrunner ▸ hsome)⟩
      rw [hcalls, hold]
      have hlength := List.length_filterMap_le (calledNode r) events
      match hnew : events.filterMap (calledNode r) with
      | [] => exact ⟨m, hm, List.append_nil _⟩
      | j :: j' :: rest =>
        rw [hnew] at hlength
        simp only [List.length_cons] at hlength
        omega
      | [j] =>
        rw [hold, hnew] at hcalls
        have hj : .launched ⟨r, j⟩ ∈ t.log := mem_launches.1 (by simp [hcalls])
        obtain ⟨hlt, hcount, hbefore⟩ := hr.of_launched (ht.run r) hj
        rw [← count_launches, hcalls] at hcount
        obtain rfl := eq_of_initial hcount fun i hi =>
          hcalls ▸ mem_launches.2 (hbefore i hi).1
        exact ⟨j + 1, hlt, List.range_succ.symm⟩
    · -- the run has just begun, so nothing of it has been called yet
      rcases hm.spawned with ⟨i, item, rest, w, hi, hw, rfl⟩ | ⟨tasks, agenda, events, hsp, -⟩
      · have hbegins : (r, region) ∈ item.begins :=
          (List.mem_append.1 hr.begun).resolve_left hbegun
        obtain rfl : item = .start r region := by cases item <;> simp_all [Item.begins]
        have hnone : s.launches r = [] := by
          refine List.eq_nil_iff_forall_not_mem.2 fun j hj => ?_
          have hidle := (hreach.sound.idle_of_start hi).count (.node j .launched) (by simp)
          rw [show (s.view r).count (.node j .launched) = _ from marks_launched s r j,
            List.count_eq_zero] at hidle
          exact hidle (mem_launches.1 hj)
        refine ⟨0, Nat.zero_le _, ?_⟩
        rw [launches, after, List.filterMap_append]
        exact congrArg (· ++ []) hnone
      · exact absurd (hsp.begun ▸ hr.begun) hbegun

theorem RunSound.exists_shown (h : s.RunSound r) (hi : .ended ⟨r, i⟩ o ∈ s.log) :
    (NodeState.ended o).Shown ((s.view r).progress i) ((s.view r).marks i) := by
  have hpos : 0 < (s.view r).marks i (.ended o) := by
    rw [marks_ended]
    exact List.count_pos_iff.2 hi
  cases h with
  | idle hv =>
    rw [show (s.view r).marks i (.ended o) = 0 from hv.count _ (by simp)] at hpos
    cases hpos
  | empty hv =>
    rw [show (s.view r).marks i (.ended o) = 0 from hv.count _ (by simp) (by simp) (by simp)] at hpos
    cases hpos
  | ordered hv => exact (ended_of_shown (hv.shown i)).1 hi ▸ hv.shown i
  | scheduled hv => exact (ended_of_shown (hv.shown i)).1 hi ▸ hv.shown i

theorem Sound.launched_of_ended (hs : s.Sound) (hi : .ended ⟨r, i⟩ o ∈ s.log) :
    .launched ⟨r, i⟩ ∈ s.log := by
  have hmark := ((hs.run r).exists_shown hi).fixed .launched rfl
  rw [marks_launched] at hmark
  exact List.count_pos_iff.1 (by simp [hmark])

/-- What has been called and is in flight no more has ended. -/
theorem Sound.exists_ended {c : CallKey} (hs : s.Sound) (hc : .launched c ∈ s.log)
    (hnone : s.world.call? c = none) : ∃ o, .ended c o ∈ s.log := by
  have hpos : 0 < (s.view c.run).marks c.node .launched := by
    rw [marks_launched]
    exact List.count_pos_iff.2 hc
  have hprogress : (s.view c.run).progress c.node = none := congrArg (Option.map Call.progress) hnone
  have hended : ∀ {x : NodeState}, x.Shown ((s.view c.run).progress c.node)
      ((s.view c.run).marks c.node) → ∃ o, .ended c o ∈ s.log := fun {x} hx => by
    have hmark := hx.fixed .launched rfl
    have hshown : none = x.progress? := hprogress.symm.trans hx.progress
    cases x with
    | ended o => exact ⟨o, (ended_of_shown hx).2 rfl⟩
    | running p => cases hshown
    | waiting | due | called | skipped | dropped =>
      rw [hmark] at hpos
      cases hpos
  cases hs.run c.run with
  | idle hv =>
    rw [show (s.view c.run).marks c.node .launched = 0 from hv.count _ (by simp)] at hpos
    cases hpos
  | empty hv =>
    rw [show (s.view c.run).marks c.node .launched = 0 from
      hv.count _ (by simp) (by simp) (by simp)] at hpos
    cases hpos
  | ordered hv | scheduled hv => exact hended (hv.shown c.node)

theorem Sound.ended_unique (hs : s.Sound) {o' : Outcome} (hi : .ended ⟨r, i⟩ o ∈ s.log)
    (hi' : .ended ⟨r, i⟩ o' ∈ s.log) : o' = o := by
  have hstate := (ended_of_shown ((hs.run r).exists_shown hi)).1 hi'
  exact (NodeState.ended.inj hstate).symm

theorem Sound.count_ended (hs : s.Sound) (hi : .ended ⟨r, i⟩ o ∈ s.log) :
    s.log.count (.ended ⟨r, i⟩ o) = 1 := by
  have hmark := ((hs.run r).exists_shown hi).fixed (.ended o) rfl
  rwa [marks_ended, NodeState.weight, if_pos rfl] at hmark

theorem Reachable.ended_before (h : Reachable b s) (hr : s.Sequences r region)
    {pre post : List Event} (hlog : s.log = pre ++ .launched ⟨r, j⟩ :: post) (hij : i < j) :
    .ended ⟨r, i⟩ (.ok ()) ∈ pre := by
  obtain ⟨s₁, ch, t₁, hs₁, hm, rfl, hlog₁, hbegun, hrunner⟩ := h.noted_at hlog
  have ht₁ := (hs₁.move hm).sound
  have hj : .launched ⟨r, j⟩ ∈ t₁.log := by simp [hlog₁]
  have hr₁ := hr.of_prefix h.sound ht₁ hbegun hrunner hj
  have hended := ((hr₁.of_launched (ht₁.run r) hj).2.2 i hij).2
  simpa [hlog₁] using hended

/-- Nothing is called after an operation that has failed. -/
theorem Reachable.not_failed_before (h : Reachable b s) (hr : s.Sequences r region)
    {pre post : List Event} (hlog : s.log = pre ++ .launched ⟨r, j⟩ :: post) (e : Error) :
    .ended ⟨r, i⟩ (.error e) ∉ pre := fun hi => by
  obtain ⟨s₁, ch, t₁, hs₁, hm, rfl, hlog₁, hbegun, hrunner⟩ := h.noted_at hlog
  have ht₁ := (hs₁.move hm).sound
  have hj : .launched ⟨r, j⟩ ∈ t₁.log := by simp [hlog₁]
  have hr₁ := hr.of_prefix h.sound ht₁ hbegun hrunner hj
  have hi₁ : .ended ⟨r, i⟩ (.error e) ∈ t₁.log := by simp [hlog₁, hi]
  obtain ⟨-, hcount, hbefore⟩ := hr₁.of_launched (ht₁.run r) hj
  have hnot : .launched ⟨r, j⟩ ∉ s₁.log := fun hmem => by
    have := List.count_pos_iff.2 hmem
    rw [hlog₁, List.count_append, List.count_singleton_self] at hcount
    omega
  rcases Nat.lt_trichotomy i j with hij | rfl | hij
  · cases ht₁.ended_unique hi₁ (hbefore i hij).2
  · exact hnot (hs₁.sound.launched_of_ended hi)
  · have hended := ((hr₁.of_launched (ht₁.run r) (ht₁.launched_of_ended hi₁)).2.2 j hij).2
    rw [hlog₁] at hended
    exact hnot (hs₁.sound.launched_of_ended (by simpa using hended))

end Crew

/-- What the events of a run are worth, by kind. -/
theorem tally_eq (region : Program α) (r : RunKey) (log : List Event) :
    tally region r log =
      { executions := if region.ops.isEmpty then 0 else log.count (.started r)
        sequential := if region.ops.isEmpty then 0 else log.count (.started r)
        launched := (log.filterMap (Crew.calledNode r)).length
        failed := (log.filterMap (Crew.failedNode r)).length
        skipped := ((log.filterMap (Crew.failedNode r)).map fun j =>
          region.ops.length - j - 1).sum } := by
  induction log with
  | nil => cases h : region.ops.isEmpty <;> rfl
  | cons e log ih =>
    rw [← List.singleton_append, tally_append, ih]
    have hrun : tally region r [e] = if e.run = r then e.worth region else 0 := by
      by_cases h : e.run = r <;> simp [tally, h]
    rw [hrun]
    cases e with
    | started r' =>
      by_cases h : r' = r <;> cases hempty : region.ops.isEmpty <;> ext <;>
        simp [Event.run, Event.worth, List.filterMap_cons, Crew.calledNode, Crew.failedNode, h, hempty,
          Nat.add_comm]
    | launched c =>
      by_cases h : c.run = r <;> ext <;>
        simp [Event.run, Event.worth, List.filterMap_cons, Crew.calledNode, Crew.failedNode, h,
          Nat.add_comm]
    | ended c o =>
      cases o <;> by_cases h : c.run = r <;> ext <;>
        simp [Event.run, Event.worth, List.filterMap_cons, Crew.calledNode, Crew.failedNode, h,
          Nat.add_comm]
    | skipped | dropped | turned | resolved =>
      ext <;> simp [Event.worth, List.filterMap_cons, Crew.calledNode, Crew.failedNode]

namespace Crew

/-- How a run in order has ended, and what it has called and counted until then: all operations have
ended well, or those before one that has failed have. -/
inductive Concludes (s : Crew α σ ι) (r : RunKey) (region : Program α) : Outcome → Prop
  | well (hall : ∀ j < region.ops.length, .ended ⟨r, j⟩ (.ok ()) ∈ s.log)
      (hlaunches : s.launches r = List.range region.ops.length)
      (htally : tally region r s.log =
        { executions := min 1 region.ops.length, sequential := min 1 region.ops.length
          launched := region.ops.length, failed := 0, skipped := 0 }) : Concludes s r region (.ok ())
  | badly {i : Nat} {e : Error} (hi : i < region.ops.length)
      (hbefore : ∀ j < i, .ended ⟨r, j⟩ (.ok ()) ∈ s.log)
      (hfailed : .ended ⟨r, i⟩ (.error e) ∈ s.log)
      (hlaunches : s.launches r = List.range (i + 1))
      (htally : tally region r s.log =
        { executions := 1, sequential := 1
          launched := i + 1, failed := 1, skipped := region.ops.length - i - 1 }) :
    Concludes s r region (.error (e.attributedTo (infoAt region i)))

variable {s : Crew α σ ι} {r : RunKey} {i j : Nat} {region : Program α}

theorem failedNode_eq {e : Event} :
    failedNode r e = some j ↔ ∃ e', e = .ended ⟨r, j⟩ (.error e') := by
  cases e with
  | ended c o =>
    obtain ⟨r', j'⟩ := c
    cases o <;> simp [failedNode]
  | _ => simp [failedNode]

theorem failures_eq_nil (h : ∀ j e, .ended ⟨r, j⟩ (.error e) ∉ s.log) :
    s.log.filterMap (failedNode r) = [] := by
  refine List.eq_nil_iff_forall_not_mem.2 fun j hj => ?_
  obtain ⟨ev, hev, hnode⟩ := List.mem_filterMap.1 hj
  obtain ⟨e, rfl⟩ := failedNode_eq.1 hnode
  exact h j e hev

variable [Leaf α] {b : Backend α σ ι} {o : Outcome}

/-- A failure is noted once. -/
theorem Sound.count_failures (hs : s.Sound) {e : Error} (hi : .ended ⟨r, i⟩ (.error e) ∈ s.log) :
    (s.log.filterMap (failedNode r)).count i = 1 := by
  rw [← hs.count_ended hi, List.count, List.countP_filterMap, List.count]
  refine List.countP_congr fun ev hev => ?_
  rw [beq_iff_eq]
  constructor
  · intro h
    cases hnode : failedNode r ev with
    | none => simp [hnode] at h
    | some j =>
      obtain rfl : j = i := by simpa [hnode] using h
      obtain ⟨e', rfl⟩ := failedNode_eq.1 hnode
      rw [hs.ended_unique hi hev]
  · rintro rfl
    simp [failedNode_eq.2 ⟨e, rfl⟩]

theorem failures_eq_singleton (hs : s.Sound) {e : Error} (hi : .ended ⟨r, i⟩ (.error e) ∈ s.log)
    (honly : ∀ j e', .ended ⟨r, j⟩ (.error e') ∈ s.log → j = i) :
    s.log.filterMap (failedNode r) = [i] := by
  refine eq_toList_of_count (y := some i) fun j => ?_
  by_cases hij : i = j
  · subst hij
    rw [hs.count_failures hi, if_pos rfl]
  · rw [if_neg (by simpa using hij), List.count_eq_zero]
    intro hj
    obtain ⟨ev, hev, hnode⟩ := List.mem_filterMap.1 hj
    obtain ⟨e', rfl⟩ := failedNode_eq.1 hnode
    exact hij (honly j e' hev).symm

theorem tally_ordered {st : Nat → NodeState} {fin : Option Outcome} {m : Nat} {failures : List Nat}
    (hv : (s.view r).Ordered region st fin) (hlaunches : s.launches r = List.range m)
    (hfailures : s.log.filterMap (failedNode r) = failures) :
    tally region r s.log =
      { executions := 1, sequential := 1, launched := m, failed := failures.length
        skipped := (failures.map fun j => region.ops.length - j - 1).sum } := by
  have hstarted : s.log.count (.started r) = 1 := (s.count_view_of_event rfl).symm.trans hv.started
  have hnonempty : region.ops.isEmpty = false := by simpa using hv.nonempty
  rw [tally_eq, hfailures]
  change Stats.mk _ _ (s.launches r).length _ _ = _
  simp [hlaunches, hnonempty, hstarted]

omit [Leaf α] in
/-- An empty run ends well, and nothing has been called. -/
theorem concludes_of_empty (hv : (s.view r).Empty region) (ho : .resolved r o ∈ s.log)
    (hlaunches : s.launches r = []) : s.Concludes r region o := by
  have hresolved : 0 < (s.view r).count (.resolved o) := by
    rw [count_resolved]
    exact List.count_pos_iff.2 ho
  obtain rfl : o = .ok () := by
    by_contra hne
    rw [hv.count _ (by simp) (by simp) (by simpa using hne)] at hresolved
    cases hresolved
  have hnone : ∀ j e, .ended ⟨r, j⟩ (.error e) ∉ s.log := fun j e hj => by
    have hzero : (s.view r).count (.node j (.ended (.error e))) = 0 :=
      hv.count _ (by simp) (by simp) (by simp)
    rw [show (s.view r).count (.node j (.ended (.error e))) = _ from marks_ended s r j _,
      List.count_eq_zero] at hzero
    exact hzero hj
  refine .well (fun j hj => by simp [hv.empty] at hj) (by rw [hlaunches, hv.empty]; rfl) ?_
  rw [tally_eq, failures_eq_nil hnone]
  change Stats.mk _ _ (s.launches r).length _ _ = _
  simp [hlaunches, hv.empty]

section Over

variable {st : Nat → NodeState} {m : Nat} (hs : s.Sound) (hr : s.Sequences r region)
  (hv : (s.view r).Ordered region st (some o)) (hm : m ≤ region.ops.length)
  (hlaunches : s.launches r = List.range m)

include hs hv hm hlaunches

/-- All operations have ended well. -/
theorem concludes_of_all (hall : ∀ j < region.ops.length, st j = .ended (.ok ())) :
    s.Concludes r region o := by
  have hended := ended_mem_iff_ordered hv
  have hgood : ∀ j e, .ended ⟨r, j⟩ (.error e) ∉ s.log := fun j e hj => by
    have hstate := (hended j _).1 hj
    rw [hall j (hv.follows.lt_length (by rw [hstate]; rfl))] at hstate
    cases hstate
  obtain rfl : m = region.ops.length := by
    refine Nat.le_antisymm hm ?_
    by_contra hlt
    have hnext := mem_launches.2 (hs.launched_of_ended ((hended m _).2 (hall m (by omega))))
    simp [hlaunches] at hnext
  cases o with
  | ok =>
    have hpos := List.length_pos_iff.2 hv.nonempty
    refine .well (fun j hj => (hended j _).2 (hall j hj)) hlaunches ?_
    rw [tally_ordered hv hlaunches (failures_eq_nil hgood), Nat.min_eq_left hpos]
    rfl
  | error e =>
    obtain ⟨j, e', hj, -⟩ := hv.bad e rfl
    exact absurd ((hended j _).2 hj) (hgood j e')

include hr

/-- An operation has failed, and none has been called after it. -/
theorem concludes_of_not_all (hall : ¬ ∀ j < region.ops.length, st j = .ended (.ok ())) :
    s.Concludes r region o := by
  have hended := ended_mem_iff_ordered hv
  obtain ⟨i, e, hi, hmin, he, honly⟩ := hv.exists_failed (hv.still o rfl) hall
  have hfailed := (hended i _).2 he
  obtain rfl : m = i + 1 := by
    have hcalled := mem_launches.2 (hs.launched_of_ended hfailed)
    rw [hlaunches, List.mem_range] at hcalled
    refine Nat.le_antisymm ?_ hcalled
    by_contra hlt
    have hnext : .launched ⟨r, i + 1⟩ ∈ s.log :=
      mem_launches.1 (by rw [hlaunches, List.mem_range]; omega)
    have hok := ((hr.of_launched (hs.run r) hnext).2.2 i (Nat.lt_succ_self i)).2
    cases hs.ended_unique hfailed hok
  cases o with
  | ok =>
    have := hv.good rfl i hi
    simp [he, NodeState.endsWith] at this
  | error e₀ =>
    obtain ⟨j, e', hj, rfl⟩ := hv.bad e₀ rfl
    obtain rfl := honly j e' hj
    rw [hj] at he
    cases he
    refine .badly hi (fun j hj => (hended j _).2 (hmin j hj)) hfailed hlaunches ?_
    rw [tally_ordered hv hlaunches (failures_eq_singleton hs hfailed fun k e'' hk => ?_)]
    · simp
    · exact honly k e'' ((hended k _).1 hk)

end Over

/-- A run in order that has been resolved has come to an end in one of these ways. -/
theorem Sequences.concluded (h : Reachable b s) (hr : s.Sequences r region)
    (ho : .resolved r o ∈ s.log) : s.Concludes r region o := by
  have hs := h.sound
  obtain ⟨m, hm, hlaunches⟩ := h.launches_eq hr
  rcases hr.cases (hs.run r) with hv | ⟨st, fin, hv⟩
  · refine concludes_of_empty hv ho ?_
    obtain rfl : m = 0 := by simpa [hv.empty] using hm
    exact hlaunches
  · have hresolved : 0 < (s.view r).count (.resolved o) := by
      rw [count_resolved]
      exact List.count_pos_iff.2 ho
    obtain rfl : fin = some o := by
      by_contra hne
      have := hv.closing o
      rw [if_neg hne] at this
      omega
    by_cases hall : ∀ j < region.ops.length, st j = .ended (.ok ())
    · exact concludes_of_all hs hv hm hlaunches hall
    · exact concludes_of_not_all hs hr hv hm hlaunches hall

/-- A run in order of which nothing is left to do has been resolved. -/
theorem Sequences.concludes (h : Reachable b s) (hr : s.Sequences r region) (hq : s.IsQuiet r) :
    ∃ o, .resolved r o ∈ s.log ∧ s.Concludes r region o := by
  have hresolved : ∀ {o}, (s.view r).count (.closing o) + (s.view r).count (.resolved o) = 1 →
      .resolved r o ∈ s.log := fun {o} hsum => by
    have hclosing : (s.view r).count (.closing o) = 0 := hq.count_eq_zero rfl
    rw [hclosing, count_resolved] at hsum
    exact List.count_pos_iff.1 (by omega)
  suffices hex : ∃ o, .resolved r o ∈ s.log from
    let ⟨o, ho⟩ := hex
    ⟨o, ho, hr.concluded h ho⟩
  rcases hr.cases (h.sound.run r) with hv | ⟨st, fin, hv⟩
  · exact ⟨_, hresolved hv.closing⟩
  · cases fin with
    | some o => exact ⟨o, hresolved (by simpa using hv.closing o)⟩
    | none =>
      obtain ⟨j, hj⟩ := hv.unfinished rfl
      rw [hq.isStill_of_shown (hv.shown j)] at hj
      cases hj

theorem Concludes.eq_ok_iff (h : s.Concludes r region o) (hs : s.Sound) :
    o = .ok () ↔ ∀ j < region.ops.length, .ended ⟨r, j⟩ (.ok ()) ∈ s.log := by
  cases h with
  | well hall => exact ⟨fun _ => hall, fun _ => rfl⟩
  | badly hi _ hfailed =>
    refine ⟨nofun, fun hall => ?_⟩
    cases hs.ended_unique hfailed (hall _ hi)

omit [Leaf α] in
/-- The outcomes of the operations decide what a run in order calls, how it ends and what it
counts. -/
theorem Concludes.unique (h : s.Concludes r region o) {σ' ι' : Type} {s' : Crew α σ' ι'} {r' : RunKey}
    {region' : Program α} {o' : Outcome} (h' : s'.Concludes r' region' o')
    (hops : region'.ops = region.ops)
    (hsame : ∀ j x x', .ended ⟨r, j⟩ x ∈ s.log → .ended ⟨r', j⟩ x' ∈ s'.log → x' = x) :
    s'.launches r' = s.launches r ∧ o' = o ∧
      tally region' r' s'.log = tally region r s.log := by
  cases h with
  | well hall hlaunches htally =>
    cases h' with
    | well hall' hlaunches' htally' =>
      exact ⟨by rw [hlaunches, hlaunches', hops], rfl, by rw [htally, htally', hops]⟩
    | badly hi' _ hfailed' => cases hsame _ _ _ (hall _ (hops ▸ hi')) hfailed'
  | @badly i e hi hbefore hfailed hlaunches htally =>
    cases h' with
    | well hall' => cases hsame _ _ _ hfailed (hall' _ (hops.symm ▸ hi))
    | @badly i' e' hi' hbefore' hfailed' hlaunches' htally' =>
      rcases Nat.lt_trichotomy i i' with hlt | rfl | hlt
      · cases hsame _ _ _ hfailed (hbefore' _ hlt)
      · obtain rfl : e' = e := Except.error.inj (hsame _ _ _ hfailed hfailed')
        refine ⟨by rw [hlaunches, hlaunches'], ?_, by rw [htally, htally', hops]⟩
        rw [infoAt, infoAt, hops]
      · cases hsame _ _ _ (hbefore _ hlt) hfailed'

theorem Sound.hasBegun_of_sign (hs : s.Sound) {e : Event} {x : Sign} (he : e ∈ s.log)
    (hx : e.sign = some (r, x)) (hstart : x ≠ .start) : s.HasBegun r := by
  have hpos : 0 < (s.view r).count x := by
    rw [s.count_view_of_event hx]
    exact List.count_pos_iff.2 he
  unfold HasBegun
  cases hs.run r with
  | idle hv =>
    rw [hv.count x hstart] at hpos
    cases hpos
  | empty hv => rw [hv.started]; omega
  | ordered hv => rw [hv.started]; omega
  | scheduled hv => rw [hv.started]; omega

theorem Sound.hasBegun_of_worth (hs : s.Sound) {e : Event} (he : e ∈ s.log)
    (hworth : e.worth region ≠ 0) : s.HasBegun e.run := by
  cases e with
  | started | launched | ended => exact hs.hasBegun_of_sign he rfl (by simp)
  | skipped | dropped | turned | resolved => exact absurd rfl hworth

/-- What a host has counted since then is what its executions have brought about. -/
theorem Sequences.stats {s₀ : Crew α σ ι} {cs : List (Choice σ ι)} (hr : s.Sequences r region)
    (hscope : r.scope = []) (h₀ : Reachable b s₀) (hf : Follows b s₀ cs s) :
    ∃ new x₀ x, s.log = s₀.log ++ new ∧ s₀.world.hosts[r.host]? = some x₀ ∧
      s.world.hosts[r.host]? = some x ∧ x.stats = x₀.stats +
        ∑ e ∈ Finset.range x.executions.size, tally region ⟨r.host, e, []⟩ new := by
  obtain ⟨h, new, hlog, hall⟩ := hf.profile h₀
  have ho : s.InOrder r.host region := ⟨h.program (.inl hr.begun) hscope, hr.ordered⟩
  obtain ⟨ho₀, hprofile⟩ := hall r.host region ho
  obtain ⟨x₀, hx₀, -⟩ := Option.map_eq_some_iff.1 ho₀.program
  obtain ⟨x, hx, -⟩ := Option.map_eq_some_iff.1 ho.program
  have hstats : x.stats = x₀.stats + gain region r.host new := by
    simp only [World.profile, hx, hx₀, Option.map_some] at hprofile
    exact congrArg Prod.snd (Option.some.inj hprofile)
  refine ⟨new, x₀, x, hlog, hx₀, hx, ?_⟩
  rw [hstats, gain_eq_sum region r.host fun e he hk hworth => ?_]
  have hknown := h.sound.known _ (h.sound.hasBegun_of_worth (hlog ▸ List.mem_append_right _ he) hworth)
  rw [World.Knows, World.execution?, RunKey.eq_of_isOutermost hk, hx] at hknown
  simpa using hknown

theorem tally_new {s₀ : Crew α σ ι} {new : List Event} (h₀ : s₀.Sound) (hlog : s.log = s₀.log ++ new)
    (hr : ¬ s₀.HasBegun r) : tally region r new = tally region r s.log := by
  have hzero : tally region r s₀.log = 0 := total_eq_zero _ _ fun e he hrun => by
    by_contra hworth
    exact hr ((of_decide_eq_true hrun) ▸ h₀.hasBegun_of_worth he hworth)
  rw [hlog, tally_append, hzero, zero_add]

/-- A run in order, whichever of its operations end at once and whichever end later. It calls its
operations in the order of the program, each at most once, and none before all earlier ones have
ended well or after one has failed; it is resolved at most once. When nothing is left of it to do, it
has been resolved: well if and only if all operations have ended well, and otherwise with the failure
of the first that failed, after which nothing was called. What it has called, what has failed and what
it never called it adds to the counters of its host. Any other run in order of the same operations,
with whatever backend, whose operations have the same outcomes, calls the same, ends alike and counts
the same. -/
theorem Reachable.in_order (h : Reachable b s) (hr : s.Sequences r region) :
    (∃ m ≤ region.ops.length, s.launches r = List.range m) ∧
    (∀ i j pre post, s.log = pre ++ .launched ⟨r, j⟩ :: post →
      (i < j → .ended ⟨r, i⟩ (.ok ()) ∈ pre) ∧ ∀ e, .ended ⟨r, i⟩ (.error e) ∉ pre) ∧
    (s.endings r).length ≤ 1 ∧
    (s.IsQuiet r → ∃ o, s.endings r = [o] ∧ .resolved r o ∈ s.log ∧
      (r.scope = [] → s.world.outcome? r.host r.execution = some o) ∧
      (o = .ok () ↔ ∀ j < region.ops.length, .ended ⟨r, j⟩ (.ok ()) ∈ s.log) ∧
      s.Concludes r region o) ∧
    (r.scope = [] → ∀ s₀ cs, Reachable b s₀ → Follows b s₀ cs s → ¬ s₀.HasBegun r →
      ∃ new x₀ x, s.log = s₀.log ++ new ∧ s₀.world.hosts[r.host]? = some x₀ ∧
        s.world.hosts[r.host]? = some x ∧ x.stats = x₀.stats +
          ∑ e ∈ Finset.range x.executions.size, tally region ⟨r.host, e, []⟩ new ∧
        tally region r new = tally region r s.log) ∧
    ∀ (σ' ι' : Type) (b' : Backend α σ' ι') (s' : Crew α σ' ι') (r' : RunKey)
      (region' : Program α), Reachable b' s' → s'.Sequences r' region' →
      region'.ops = region.ops → s.IsQuiet r → s'.IsQuiet r' →
      (∀ j x x', .ended ⟨r, j⟩ x ∈ s.log → .ended ⟨r', j⟩ x' ∈ s'.log → x' = x) →
      s'.launches r' = s.launches r ∧ s'.endings r' = s.endings r ∧
        tally region' r' s'.log = tally region r s.log := by
  have hs := h.sound
  refine ⟨h.launches_eq hr, fun i j pre post hlog => ⟨fun hij => ?_, h.not_failed_before hr hlog⟩,
    (hs.run r).length_endings, fun hq => ?_, fun hscope s₀ cs h₀ hf hnew => ?_, ?_⟩
  · exact h.ended_before hr hlog hij
  · obtain ⟨o, ho, hc⟩ := hr.concludes h hq
    exact ⟨o, (hs.run r).endings_eq ho, ho, fun hscope => h.outcome hscope ho,
      hc.eq_ok_iff hs, hc⟩
  · obtain ⟨new, x₀, x, hlog, hx₀, hx, hstats⟩ := hr.stats hscope h₀ hf
    exact ⟨new, x₀, x, hlog, hx₀, hx, hstats, tally_new h₀.sound hlog hnew⟩
  · intro σ' ι' b' s' r' region' h' hr' hops hq hq' hsame
    obtain ⟨o, ho, hc⟩ := hr.concludes h hq
    obtain ⟨o', ho', hc'⟩ := hr'.concludes h' hq'
    obtain ⟨hlaunches, rfl, htally⟩ := hc.unique hc' hops hsame
    exact ⟨hlaunches, by rw [(hs.run r).endings_eq ho, (h'.sound.run r').endings_eq ho'], htally⟩

def secondFails (c : CallKey) : Outcome := if c.node = 1 then .error .promiseDropped else .ok ()

/-- A backend whose operations do nothing; the first ends later, when somebody outside says so, and
all others end at once. -/
def firstLater : Backend Primitive Unit Unit where
  launch c _ _ _ := ((), .ok (if c.node = 0 then [] else [.settle c (secondFails c)]))
  perform _ _ := ((), [], none)
  discard _ _ := ((), [])
  read _ _ _ := .ok []

/-- A world with one program of three operations and no runner. -/
def threeInOrder : Crew Primitive Unit Unit where
  world :=
    { alone [] with hosts := #[{ program := { ops :=
        [.leaf { name := "a" } (.scripted .copy {} .succeed),
          .leaf { name := "b" } (.scripted .copy {} .succeed),
          .leaf { name := "c" } (.scripted .copy {} .succeed)] } }] }

theorem reachable_threeInOrder (b : Backend Primitive Unit Unit) : Reachable b threeInOrder :=
  .fresh ⟨rfl, by simp, by simp [alone, Runner.queued]⟩

theorem leads_threeInOrder (b : Backend Primitive Unit Unit) :
    Leads b threeInOrder (threeInOrder.execute 0) := ⟨_, .snoc .nil (.execute rfl)⟩

def lateDone : Crew Primitive Unit Unit :=
  (Crew.act firstLater 1)^[6] (((Crew.act firstLater 0)^[3] (threeInOrder.execute 0)).spawn
    [.effect (.settle ⟨⟨0, 0, []⟩, 0⟩ (.ok ()))])

theorem leads_lateDone : Leads firstLater threeInOrder lateDone :=
  (((leads_threeInOrder _).acts 0 3).move
    (.outside fun d => (d, [.settle ⟨⟨0, 0, []⟩, 0⟩ (.ok ())]))).acts 1 6

def promptDone : Crew Primitive Unit Unit :=
  (Crew.act (.ending secondFails) 0)^[9] (threeInOrder.execute 0)

theorem leads_promptDone : Leads (.ending secondFails) threeInOrder promptDone :=
  (leads_threeInOrder _).acts 0 9

theorem sequences_of_first (hlt : 0 < s.begun.length) (hkey : (s.begun.get ⟨0, hlt⟩).1 = r)
    (hrunner : s.world.runnerOf? r.host = none) : s.Sequences r (s.begun.get ⟨0, hlt⟩).2 :=
  ⟨hkey ▸ List.get_mem .., by simp [hrunner]⟩

theorem begun_lateDone : 0 < lateDone.begun.length := by decide +kernel

theorem begun_promptDone : 0 < promptDone.begun.length := by decide +kernel

theorem in_order_lateDone : ∃ region, lateDone.Sequences ⟨0, 0, []⟩ region ∧
    lateDone.IsQuiet ⟨0, 0, []⟩ ∧ region.ops.length = 3 ∧
    .ended ⟨⟨0, 0, []⟩, 1⟩ (.error .promiseDropped) ∈ lateDone.log ∧
    (∃ o, o ≠ .ok () ∧ lateDone.endings ⟨0, 0, []⟩ = [o] ∧
      lateDone.Concludes ⟨0, 0, []⟩ region o ∧ lateDone.world.outcome? 0 0 = some o) ∧
    (∃ new x₀ x, threeInOrder.world.hosts[0]? = some x₀ ∧ lateDone.world.hosts[0]? = some x ∧
      x.stats = x₀.stats +
        ∑ e ∈ Finset.range x.executions.size, tally region ⟨0, e, []⟩ new) ∧
    promptDone.launches ⟨0, 0, []⟩ = lateDone.launches ⟨0, 0, []⟩ ∧
    promptDone.endings ⟨0, 0, []⟩ = lateDone.endings ⟨0, 0, []⟩ := by
  have hreach := leads_lateDone.reachable (reachable_threeInOrder _)
  have hreach' := leads_promptDone.reachable (reachable_threeInOrder _)
  have hr : lateDone.Sequences ⟨0, 0, []⟩ (lateDone.begun.get ⟨0, begun_lateDone⟩).2 :=
    sequences_of_first begun_lateDone (by decide +kernel) (by decide +kernel)
  have hr' : promptDone.Sequences ⟨0, 0, []⟩ (promptDone.begun.get ⟨0, begun_promptDone⟩).2 :=
    sequences_of_first begun_promptDone (by decide +kernel) (by decide +kernel)
  have hq : lateDone.IsQuiet ⟨0, 0, []⟩ :=
    isQuiet_of_empty (by decide +kernel) (by decide +kernel) (by decide +kernel)
  have hq' : promptDone.IsQuiet ⟨0, 0, []⟩ :=
    isQuiet_of_empty (by decide +kernel) (by decide +kernel) (by decide +kernel)
  have hlog : promptDone.log = lateDone.log := by decide +kernel
  have hnew : ¬ threeInOrder.HasBegun ⟨0, 0, []⟩ := by
    unfold HasBegun
    decide +kernel
  have hops : (promptDone.begun.get ⟨0, begun_promptDone⟩).2.ops =
      (lateDone.begun.get ⟨0, begun_lateDone⟩).2.ops := by
    have hprogram := hreach.program (.inl hr.begun) rfl
    have hprogram' := hreach'.program (.inl hr'.begun) rfl
    rw [leads_lateDone.program?] at hprogram
    rw [leads_promptDone.program?, hprogram] at hprogram'
    rw [Option.some.inj hprogram']
  obtain ⟨cs, hf⟩ := leads_lateDone
  obtain ⟨-, -, -, hquiet, hstats, hother⟩ := hreach.in_order hr
  obtain ⟨o, hendings, -, hout, hiff, hc⟩ := hquiet hq
  obtain ⟨new, x₀, x, -, hx₀, hx, hsum, -⟩ :=
    hstats rfl threeInOrder cs (reachable_threeInOrder _) hf hnew
  obtain ⟨hlaunches, hsame, -⟩ := hother _ _ _ promptDone _ _ hreach' hr' hops hq hq'
    fun j x x' hx hx' => hreach.sound.ended_unique hx (hlog ▸ hx')
  have hbad : o ≠ .ok () := fun ho => by
    have hnot : .ended ⟨⟨0, 0, []⟩, 1⟩ (.ok ()) ∉ lateDone.log := by decide +kernel
    exact hnot (hiff.1 ho 1 (by decide +kernel))
  exact ⟨_, hr, hq, by decide +kernel, by decide +kernel, ⟨o, hbad, hendings, hc, hout rfl⟩,
    ⟨new, x₀, x, hx₀, hx, hsum⟩, hlaunches, hsame⟩

end Crew

end OpFlow.Machine
