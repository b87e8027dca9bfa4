import Mathlib.Algebra.Order.BigOperators.Group.Finset
import OpFlow.Proofs.Order.Execution
import OpFlow.Proofs.Order.Halting
import OpFlow.Proofs.Order.Spending

/-!
Executions come to an end when loops do. There are only so many runs and calls. Each run begins once,
each operation ends or is skipped once, and each leaf operation waits so often; whatever else is done
spends what items and tasks are worth. So there is a number that every move makes smaller.
-/
namespace OpFlow

open Machine

namespace Process

variable {f : Footprint} {p : Process} {a a' : Arena}

def turns : Process → Arena → Nat
  | ended _ => fun _ => 0
  | going change next => fun a => (next a).turns (change a) + 1

theorem Confined.turns_congr (h : p.Confined f) (ha : a.AgreeOn f a') : p.turns a = p.turns a' := by
  induction p generalizing a a' with
  | ended o => rfl
  | going change next ih =>
    have hnext : next a = next a' := h.1.result a a' ha
    simp only [turns, hnext, ih a' (h.2 a') (h.1.agreeOn ha)]

theorem turns_step {change : Arena → Arena} {next : Arena → Process}
    (h : (p.step a).2 = .going change next) :
    (p.step a).2.turns (p.step a).1 + 1 = p.turns a := by
  cases p with
  | ended o => cases h
  | going => rfl

end Process

theorem Runner.exists_gives {τ : Type} {r : Runner τ} (h : r.queued ≠ []) :
    ∃ t rest, r.Gives t rest := by
  cases r with
  | inline => exact absurd rfl h
  | lab l =>
    obtain ⟨t, ts, hts⟩ := List.exists_cons_of_ne_nil h
    exact ⟨t, .lab { l with queue := ts.toArray }, .of_eq hts, rfl⟩
  | pool p =>
    obtain ⟨t, ts, hts⟩ := List.exists_cons_of_ne_nil h
    exact ⟨t, .pool { p with queue := ts }, .of_eq hts, rfl⟩

variable {α : Type} [Leaf α]

/-- All runs and calls that an execution of a program comes to, and the most operations that a region
of it has. -/
structure Meaning.Extent (m : Meaning α) (x : Site α) (k : Nat) where
  size : Nat
  runs : Finset RunKey
  calls : Finset (CallKey × Operation α × Arena)
  length_le : ∀ scope y, m.Inside x scope y → y.region.ops.length ≤ size
  mem_runs : ∀ r, r ∈ runs ↔ r.host = k ∧ r.execution = 0 ∧ ∃ y, m.Inside x r.scope y
  mem_calls : ∀ c op a, (c, op, a) ∈ calls ↔
    c.run.host = k ∧ c.run.execution = 0 ∧ m.Calls x c op a

theorem Meaning.Terminates.exists_extent {m : Meaning α} {x : Site α} (h : m.Terminates x) (k : Nat) :
    Nonempty (m.Extent x k) := by
  obtain ⟨n, hn⟩ := h.exists_length_le
  exact ⟨n, (h.finite_runs k).toFinset, (h.finite_calls k).toFinset, hn, fun r => by simp,
    fun c op a => by simp⟩

namespace Machine

/-! ### Operations end once -/

def Event.completes (c : CallKey) : Event → Prop
  | .skipped c' | .ended c' _ => c' = c
  | _ => False

namespace Crew

section Completed

variable {σ ι : Type} {s : Crew α σ ι} {c : CallKey} {e e' : Event}

omit [Leaf α] in
theorem hasCompleted_iff_mem : s.hasCompleted c ↔ ∃ e ∈ s.log, e.completes c := by
  simp only [hasCompleted, List.any_eq_true]
  refine exists_congr fun e => and_congr_right fun _ => ?_
  cases e <;> simp [Event.completes]

/-- A node with a mark has a state, and belongs to a run. -/
theorem RunSound.exists_shown_of_mark {r : RunKey} {j : Nat} {k : Mark} (h : s.RunSound r)
    (hk : 0 < (s.view r).marks j k) : ∃ region x, (r, region) ∈ s.begun ∧
      NodeState.Shown x ((s.view r).progress j) ((s.view r).marks j) ∧
        (x.isWaiting = false → j < region.ops.length) := by
  have hbegun : ∀ {region}, (s.view r).regions = [region] → (r, region) ∈ s.begun := fun hregions =>
    mem_begun_iff.2 (by simp [hregions])
  cases h with
  | idle hv =>
    rw [show (s.view r).marks j k = 0 from hv.count _ (by simp)] at hk
    cases hk
  | empty hv =>
    rw [show (s.view r).marks j k = 0 from hv.count _ (by simp) (by simp) (by simp)] at hk
    cases hk
  | ordered hv => exact ⟨_, _, hbegun hv.regions, hv.shown j, hv.follows.lt_length⟩
  | scheduled hv => exact ⟨_, _, hbegun hv.regions, hv.shown j, hv.follows.lt_length⟩

/-- A call is completed once. -/
theorem Sound.completes_once (hs : s.Sound) (he : e ∈ s.log) (hc : e.completes c) (he' : e' ∈ s.log)
    (hc' : e'.completes c) : e' = e ∧ s.log.count e = 1 := by
  have hstate : ∀ {e}, e ∈ s.log → e.completes c → ∃ x : NodeState,
      x.Shown ((s.view c.run).progress c.node) ((s.view c.run).marks c.node) ∧
        s.log.count e = 1 ∧ (x = .skipped ∧ e = .skipped c ∨ ∃ o, x = .ended o ∧ e = .ended c o) :=
    fun {e} he hc => by
      have hpos := List.count_pos_iff.2 he
      cases e with
      | skipped c' =>
        obtain rfl : c' = c := hc
        rw [← marks_skipped] at hpos ⊢
        obtain ⟨-, x, -, hx, -⟩ := (hs.run c'.run).exists_shown_of_mark hpos
        rw [hx.fixed .skipped rfl] at hpos ⊢
        cases x with
        | skipped => exact ⟨_, hx, rfl, .inl ⟨rfl, rfl⟩⟩
        | _ => simp [NodeState.weight] at hpos
      | ended c' o =>
        obtain rfl : c' = c := hc
        obtain ⟨r, j⟩ := c'
        have hx := (hs.run r).exists_shown he
        refine ⟨_, hx, ?_, .inr ⟨o, rfl, rfl⟩⟩
        rw [← marks_ended, hx.fixed (.ended o) rfl]
        exact if_pos rfl
      | _ => cases hc
  obtain ⟨x, hx, hcount, hcases⟩ := hstate he hc
  obtain ⟨x', hx', -, hcases'⟩ := hstate he' hc'
  refine ⟨?_, hcount⟩
  have hweight : ∀ k : Mark, k.isFixed → x.weight k = x'.weight k := fun k hk =>
    (hx.fixed k hk).symm.trans (hx'.fixed k hk)
  rcases hcases with ⟨rfl, rfl⟩ | ⟨o, rfl, rfl⟩ <;> rcases hcases' with ⟨rfl, rfl⟩ | ⟨o', rfl, rfl⟩
  · rfl
  · cases hweight .skipped rfl
  · cases hweight .skipped rfl
  · have := hweight (.ended o) rfl
    simp only [NodeState.weight, if_true] at this
    split at this
    case isTrue ho => rw [ho]
    case isFalse => cases this

/-- What is completed belongs to a run. -/
theorem Sound.exists_region_of_completes (hs : s.Sound) (he : e ∈ s.log) (hc : e.completes c) :
    ∃ region, (c.run, region) ∈ s.begun ∧ c.node < region.ops.length := by
  have hmark : ∃ k : Mark, k.isFixed ∧ (s.view c.run).marks c.node k = s.log.count e ∧
      NodeState.waiting.weight k = 0 := by
    cases e with
    | skipped c' =>
      obtain rfl : c' = c := hc
      exact ⟨.skipped, rfl, marks_skipped .., rfl⟩
    | ended c' o =>
      obtain rfl : c' = c := hc
      exact ⟨.ended o, rfl, marks_ended .., rfl⟩
    | _ => cases hc
  obtain ⟨k, hk, hcount, hwaiting⟩ := hmark
  have hpos := hcount ▸ List.count_pos_iff.2 he
  obtain ⟨region, x, hbegun, hx, hlt⟩ := (hs.run c.run).exists_shown_of_mark hpos
  refine ⟨region, hbegun, hlt ?_⟩
  rw [hx.fixed k hk] at hpos
  cases x with
  | waiting =>
    rw [hwaiting] at hpos
    cases hpos
  | _ => rfl

end Completed

/-! ### What is left to do -/

variable {s t : Crew α Bench Empty} {m : Meaning α} {P : Conduct α} {x : Site α} {d d' : Bench}
  {k i n : Nat} {c c' : CallKey} {op : Operation α} {a : Arena} {item : Item α Empty}
  {rest items : List (Item α Empty)} {tasks tasks' : List (Task Empty)} {w : World α Bench Empty}
  {run : RunKey → Option (Run α)} {call : CallKey → Option Call} {info : OpInfo} {act : α}

omit [Leaf α] in
theorem sum_map_set {β : Type} (f : β → Nat) {xs : List β} {i : Nat} {y : β} (hy : xs[i]? = some y)
    (z : β) : ((xs.set i z).map f).sum + f y = (xs.map f).sum + f z := by
  induction xs generalizing i with
  | nil => cases hy
  | cons u us ih =>
    cases i with
    | zero =>
      obtain rfl := Option.some.inj hy
      simp only [List.set_cons_zero, List.map_cons, List.sum_cons]
      omega
    | succ i =>
      have := ih (i := i) hy
      simp only [List.set_cons_succ, List.map_cons, List.sum_cons]
      omega

/-- What the items of all threads and the queued tasks are worth. -/
def load (n : Nat) (s : Crew α Bench Empty) : Nat :=
  (s.threads.map (weigh n)).sum + 10 * s.world.kept.length

theorem load_after (h : s.Does P i item rest items tasks w run call) :
    (s.after i item w).load n + item.weight n = s.load n + (weigh n items + 10 * tasks.length) := by
  have hkept : w.kept.length = tasks.length + s.world.kept.length := by
    rw [h.became.kept.length_eq, List.length_append]
    rfl
  have hthreads := sum_map_set (weigh n) h.head w.agenda
  have hagenda : weigh n w.agenda = weigh n items + weigh n rest := by
    rw [h.became.agenda, weigh_append]
    rfl
  rw [weigh_cons, hagenda] at hthreads
  change ((s.threads.set i w.agenda).map (weigh n)).sum + 10 * w.kept.length + _ =
    (s.threads.map (weigh n)).sum + _ + _
  omega

/-- A task is worth more than what it does. -/
theorem load_take {task : Task Empty} {left : Runner (Task Empty)}
    (hm : Move P.backend (.take i task left) s t) : t.load n < s.load n := by
  cases hm with | @take _ _ q _ _ hq hgives => ?_
  cases task with
  | work i => exact i.elim
  | visit r node =>
    have hkept := (World.kept_give hq hgives).length_eq
    rw [List.length_cons] at hkept
    have hthreads : (({ s with world := s.world.setRunner i left }.spawn
        (World.tasks (.visit r node))).threads.map (weigh n)).sum =
          (s.threads.map (weigh n)).sum + 9 := by
      simp [spawn, World.tasks, Item.weight]
    rw [load, load, hthreads, hkept]
    change _ + 10 * (s.world.setRunner i left).kept.length < _
    omega

/-! ### Waiting -/

/-- How often the operation of a call still waits. -/
def turnsLeft (P : Conduct α) (log : List Event) (d : Bench) : CallKey × Operation α × Arena → Nat
  | (c, .leaf _ act, a) =>
    match d.waiting c with
    | some p => p.turns d.arena + 1
    | none => if .launched c ∈ log then 0 else (P.process act).turns a
  | _ => 0

variable {log : List Event} {p : Process} {z : CallKey × Operation α × Arena}

theorem turnsLeft_mono {log' : List Event} (h : log ⊆ log') :
    turnsLeft P log' d z ≤ turnsLeft P log d z := by
  obtain ⟨c, op, a⟩ := z
  cases op with
  | leaf info act =>
    simp only [turnsLeft]
    split
    · exact le_rfl
    · split
      · exact Nat.zero_le _
      · next hnot => rw [if_neg fun hmem => hnot (h hmem)]
  | _ => exact le_rfl

theorem turnsLeft_go (hlog : .launched c ∈ log) :
    turnsLeft P log (d.go c p).1 (c, .leaf info act, a) ≤ p.turns d.arena := by
  rw [Bench.go]
  rcases hp : p.step d.arena with ⟨arena, o | ⟨change, next⟩⟩
  · simp [turnsLeft, hlog]
  · have := Process.turns_step (congrArg Prod.snd hp)
    rw [hp] at this
    simp only [turnsLeft, Function.update_self]
    exact this.le

theorem Accords.confined (h : s.Accords P.meaning x k d) (hs : s.Sound)
    (hcalls : P.meaning.Calls x c op a) (hp : d.waiting c = some p) : p.Confined op.footprint := by
  obtain ⟨info, act, hflight⟩ := h.waits c (by simp [hp])
  obtain ⟨y, hy, hnode, -⟩ := h.site hs hflight.operation
  obtain ⟨rfl, -⟩ := Meaning.Calls.unique ⟨y, hy, hnode, rfl⟩ hcalls
  obtain ⟨z, hz⟩ := hflight.call
  cases h.calls c _ a z hz hcalls with
  | nests hnot => exact absurd rfl (hnot info act)
  | leaf _ hawaits => exact (hawaits.waiting p hp).1.confined

/-- Other operations still wait as often. -/
theorem Grounded.turnsLeft_change (h : s.Grounded P.meaning x k d)
    (hr : ReachableWhile Faithful P.backend s) (hc : s.InFlight c (.leaf info act))
    (hd : Changes c (Operation.leaf info act).footprint d d') (hcc : c' ≠ c)
    (hcalls : P.meaning.Calls x c' op a)
    (hconfined : ∀ p, d.waiting c' = some p → p.Confined op.footprint) :
    turnsLeft P log d' (c', op, a) = turnsLeft P log d (c', op, a) := by
  cases op with
  | leaf info' act' =>
    simp only [turnsLeft, hd.waiting c' hcc]
    cases hp : d.waiting c' with
    | none => rfl
    | some p =>
      obtain ⟨info₁, act₁, hflight⟩ := h.waits c' (by simp [hp])
      obtain ⟨y, hy, hnode, -⟩ := h.site hr.reachable.sound hflight.operation
      obtain ⟨hop, -⟩ := Meaning.Calls.unique ⟨y, hy, hnode, rfl⟩ hcalls
      rw [← hop] at hflight
      have hagree := h.agreeOn_change hr hc hd hcc hflight (hflight.not_encloses hc hr)
      exact congrArg (· + 1) ((hconfined p hp).turns_congr hagree)
  | _ => rfl

/-- No operation waits more often when a thread has done an item. -/
theorem Accords.turnsLeft_after (h : s.Accords P.meaning x k s.world.device)
    (hr : ReachableWhile Faithful P.backend s)
    (hr' : ReachableWhile Faithful P.backend (s.after i item w))
    (hdoes : s.Does P i item rest items tasks w run call) (hcalls : P.meaning.Calls x c op a) :
    turnsLeft P (s.after i item w).log w.device (c, op, a) ≤
      turnsLeft P s.log s.world.device (c, op, a) := by
  have hs := hdoes.sound
  have hlog : s.log ⊆ (s.after i item w).log := List.subset_append_left _ _
  rcases hdoes.device_cases with ⟨c₀, info, act, rfl, hop, hdevice⟩ | ⟨-, hdevice⟩
  · obtain ⟨y, hy, hnode, -⟩ := h.site hs hop
    have hcalls₀ : P.meaning.Calls x c₀ _ (P.meaning.before y c₀.node) := ⟨y, hy, hnode, rfl⟩
    have hfound := h.found hs hdoes.after hdoes.head hop hcalls₀
    have hconfined := (P.left hfound).confined
    have hflight := hdoes.inFlight_of_leaf hop
    rw [hdevice]
    by_cases hcc : c = c₀
    · subst hcc
      obtain ⟨rfl, rfl⟩ := hcalls₀.unique hcalls
      refine (turnsLeft_go (hdoes.after.launched_of_call hflight.call.choose_spec)).trans ?_
      have hwaiting : s.world.device.waiting c = none := by
        by_contra hwaits
        obtain ⟨info', act', ⟨z, hz⟩, -⟩ := h.waits c hwaits
        cases hz.symm.trans (hs.call?_of_call hdoes.head).1
      simp only [turnsLeft, hwaiting, if_neg (hs.not_launched_of_call hdoes.head)]
      exact (hconfined.turns_congr hfound).le
    · rw [(h.grounded_after hdoes hr.shows).turnsLeft_change hr' hflight (changes_go hconfined) hcc
        hcalls fun p hp => h.confined hs hcalls hp]
      exact turnsLeft_mono hlog
  · rw [hdevice]
    exact turnsLeft_mono hlog

/-! ### Spending -/

theorem Does.not_completed (h : s.Does P i item rest items tasks w run call) {e : Event}
    (he : e ∈ s.world.noted item) (hc : e.completes c) : ¬ s.hasCompleted c := by
  rw [hasCompleted_iff_mem]
  rintro ⟨e', he', hc'⟩
  obtain ⟨rfl, hone⟩ := h.after.completes_once (List.mem_append_right _ he) hc
    (List.mem_append_left _ he') hc'
  change (s.log ++ s.world.noted item).count e' = 1 at hone
  rw [List.count_append] at hone
  have := List.count_pos_iff.2 he
  have := List.count_pos_iff.2 he'
  omega

/-- No node of a run in this world releases more nodes than its region has operations. -/
theorem Grounded.releases (h : s.Grounded m x k d) (hs : s.Sound) (E : m.Extent x k)
    (agenda : List (Item α Empty)) : (s.seenBy agenda).Releases E.size := by
  intro r region u holders hrun node
  replace hrun : (s.view r).run = some ⟨region, .scheduled u holders⟩ := hrun
  have hsited : ∀ {region : Program α}, (s.view r).regions = [region] → region.ops.length ≤ E.size :=
    fun {region} hregions => by
      obtain ⟨-, -, y, hy, rfl⟩ := h.sited r region (.inl (mem_begun_iff.2 (by simp [hregions])))
      exact E.length_le _ y hy
  cases hs.run r with
  | idle hv | empty hv => cases hv.run.symm.trans hrun
  | ordered hv =>
    have hlive : ∀ o, (s.view r).count (.resolved o) = 0 := fun o => by
      by_contra hpos
      cases (hv.dead o (Nat.pos_of_ne_zero hpos)).symm.trans hrun
    cases (hv.live hlive).symm.trans hrun
  | scheduled hv =>
    have hlive : ∀ o, (s.view r).count (.resolved o) = 0 := fun o => by
      by_contra hpos
      cases (hv.dead o (Nat.pos_of_ne_zero hpos)).symm.trans hrun
    cases (hv.live hlive).symm.trans hrun
    rw [hv.tracks.graph]
    have hsubset : (Graph.build region.reduction region.footprints).succsOf node ⊆
        List.range region.ops.length := fun j hj => by
      have := Graph.lt_length_of_edge_build (Graph.mem_succsOf_build.1 hj)
      rwa [Region.length_footprints, ← List.mem_range] at this
    have hle := (Graph.nodup_succsOf_build.subperm hsubset).length_le
    rw [List.length_range] at hle
    exact hle.trans (hsited hv.regions)

theorem Does.spends (hdoes : s.Does P i item rest items tasks w run call)
    (h : s.Grounded P.meaning x k d) (E : P.meaning.Extent x k) :
    (s.seenBy rest).Spends E.size item items tasks := by
  have hs := hdoes.sound
  obtain ⟨items', tasks', run', call', hb, hspends⟩ := World.step_spends
    (P := P) rfl hdoes.step (h.releases hs E _) fun r region hitem => by
      subst hitem
      obtain ⟨-, -, y, hy, rfl⟩ := h.sited r region (.inr ⟨_, mem_threads hdoes.head,
        List.mem_cons_self⟩)
      exact ⟨hs.known r (hasBegun_of_head hdoes.head), E.length_le _ y hy⟩
  replace hb : (s.seenBy rest).Became w items' tasks' run' call' := hb
  obtain rfl : items' = items := List.append_cancel_right (hb.agenda.symm.trans hdoes.became.agenda)
  refine hspends.of_length ?_
  have := (hb.kept.symm.trans hdoes.became.kept).length_eq
  simpa using this.symm

open Classical in
noncomputable def runsLeft (E : P.meaning.Extent x k) (s : Crew α Bench Empty) : Finset RunKey :=
  E.runs.filter fun r => ¬ s.HasBegun r

def callsLeft (E : P.meaning.Extent x k) (s : Crew α Bench Empty) :
    Finset (CallKey × Operation α × Arena) :=
  E.calls.filter fun z => ¬ s.hasCompleted z.1

def waitsLeft (E : P.meaning.Extent x k) (log : List Event) (d : Bench) : Nat :=
  ∑ z ∈ E.calls, turnsLeft P log d z

/-- What makes an execution come to an end. -/
noncomputable def potential (E : P.meaning.Extent x k) (s : Crew α Bench Empty) : Nat :=
  s.load E.size + (runsLeft E s).card * price E.size + (callsLeft E s).card * price E.size +
    2 * waitsLeft E s.log s.world.device

open Classical in
theorem mem_runsLeft {E : P.meaning.Extent x k} {r : RunKey} :
    r ∈ runsLeft E s ↔ r ∈ E.runs ∧ ¬ s.HasBegun r := by
  rw [runsLeft, Finset.mem_filter]

theorem mem_callsLeft {E : P.meaning.Extent x k} :
    z ∈ callsLeft E s ↔ z ∈ E.calls ∧ ¬ s.hasCompleted z.1 := by
  rw [callsLeft, Finset.mem_filter]

theorem Does.runsLeft_subset (hdoes : s.Does P i item rest items tasks w run call)
    (E : P.meaning.Extent x k) : runsLeft E (s.after i item w) ⊆ runsLeft E s := fun r hr => by
  rw [mem_runsLeft] at hr ⊢
  exact ⟨hr.1, fun hbegun => hr.2 (hasBegun_mono hdoes.head hdoes.became hbegun)⟩

theorem Accords.runsLeft_ssubset (h : s.Accords P.meaning x k s.world.device)
    (hdoes : s.Does P i item rest items tasks w run call) (E : P.meaning.Extent x k) {number : Nat}
    {region : Program α} (hmem : .start (c.nested number) region ∈ items) :
    runsLeft E (s.after i item w) ⊂ runsLeft E s := by
  obtain ⟨hhost, hexecution, z, hz, -⟩ := h.starts_inside hdoes hmem
  refine ⟨hdoes.runsLeft_subset E, fun hsubset => ?_⟩
  have hleft : c.nested number ∈ runsLeft E s :=
    mem_runsLeft.2 ⟨(E.mem_runs _).2 ⟨hhost, hexecution, z, hz⟩, hdoes.not_hasBegun hmem⟩
  exact (mem_runsLeft.1 (hsubset hleft)).2
    (hasBegun_of_start hdoes.became (List.getElem?_eq_some_iff.1 hdoes.head).1 hmem)

omit [Leaf α] in
theorem hasCompleted_mono (h : s.log ⊆ t.log) (hc : s.hasCompleted c) : t.hasCompleted c := by
  rw [hasCompleted_iff_mem] at hc ⊢
  obtain ⟨e, he, hc⟩ := hc
  exact ⟨e, h he, hc⟩

theorem callsLeft_subset (E : P.meaning.Extent x k) :
    callsLeft E (s.after i item w) ⊆ callsLeft E s := fun z hz => by
  rw [mem_callsLeft] at hz ⊢
  exact ⟨hz.1, fun hdone => hz.2 (hasCompleted_mono (List.subset_append_left _ _) hdone)⟩

theorem Accords.callsLeft_ssubset (h : s.Accords P.meaning x k s.world.device)
    (hdoes : s.Does P i item rest items tasks w run call) (E : P.meaning.Extent x k) {e : Event}
    (he : e ∈ s.world.noted item) (hc : e.completes c) :
    callsLeft E (s.after i item w) ⊂ callsLeft E s := by
  have hlog : e ∈ (s.after i item w).log := List.mem_append_right _ he
  obtain ⟨region, hbegun, hlt⟩ := hdoes.after.exists_region_of_completes hlog hc
  obtain ⟨hhost, hexecution, y, hy, rfl⟩ := h.sited_after hdoes (.inl hbegun)
  refine ⟨callsLeft_subset E, fun hsubset => ?_⟩
  have hleft : (c, y.region.ops[c.node], P.meaning.before y c.node) ∈ callsLeft E s :=
    mem_callsLeft.2 ⟨(E.mem_calls ..).2 ⟨hhost, hexecution, y, hy, List.getElem?_eq_getElem hlt, rfl⟩,
      hdoes.not_completed he hc⟩
  exact (mem_callsLeft.1 (hsubset hleft)).2 (hasCompleted_iff_mem.2 ⟨e, hlog, hc⟩)

theorem Accords.waitsLeft_le (h : s.Accords P.meaning x k s.world.device)
    (hr : ReachableWhile Faithful P.backend s)
    (hr' : ReachableWhile Faithful P.backend (s.after i item w))
    (hdoes : s.Does P i item rest items tasks w run call) (E : P.meaning.Extent x k) :
    waitsLeft E (s.after i item w).log w.device ≤ waitsLeft E s.log s.world.device := by
  refine Finset.sum_le_sum fun z hz => ?_
  obtain ⟨c, op, a⟩ := z
  exact h.turnsLeft_after hr hr' hdoes ((E.mem_calls c op a).1 hz).2.2

/-- A thread does an item. -/
theorem Accords.potential_act (E : P.meaning.Extent x k) (h : s.Accords P.meaning x k s.world.device)
    (hr : ReachableWhile Faithful P.backend s) (hm : Move P.backend (.act i) s t) :
    t.potential E < s.potential E := by
  have hs := hr.reachable.sound
  have hr' := hr.move (h.faithful hs) hm
  obtain @⟨_, _, item, rest, w, hn, hw⟩ := hm
  obtain ⟨items, tasks, run, call, hdoes⟩ := hs.exists_does hn hw
  have hload := load_after (n := E.size) hdoes
  have hwaits := h.waitsLeft_le hr hr' hdoes E
  have hruns := Nat.mul_le_mul_right (price E.size) (Finset.card_le_card (hdoes.runsLeft_subset E))
  have hsubset : callsLeft E (s.after i item w) ⊆ callsLeft E s := callsLeft_subset E
  have hcalls := Nat.mul_le_mul_right (price E.size) (Finset.card_le_card hsubset)
  change (s.after i item w).load E.size + _ + _ + 2 * waitsLeft E (s.after i item w).log w.device < _
  unfold potential
  cases hdoes.spends h.toGrounded E with
  | saves hspent => omega
  | begins hmem hspent =>
    have hfewer := Nat.mul_le_mul_right (price E.size)
      (Nat.succ_le_of_lt (Finset.card_lt_card (h.runsLeft_ssubset hdoes E hmem)))
    rw [Nat.succ_mul] at hfewer
    omega
  | @completes c hc hspent =>
    obtain ⟨e, he, hec⟩ : ∃ e ∈ s.world.noted item, e.completes c := by
      rcases hc with ⟨o, ho⟩ | hskipped
      · exact ⟨_, ho, rfl⟩
      · exact ⟨_, hskipped, rfl⟩
    have hfewer := Nat.mul_le_mul_right (price E.size)
      (Nat.succ_le_of_lt (Finset.card_lt_card (h.callsLeft_ssubset hdoes E he hec)))
    rw [Nat.succ_mul] at hfewer
    omega

theorem Spawned.potential_lt {agenda : List (Item α Empty)} (E : P.meaning.Extent x k)
    (h : s.Spawned t tasks agenda []) (hlog : t.log = s.log)
    (hagenda : ∀ r region, .start r region ∉ agenda)
    (hless : t.load E.size + 2 * waitsLeft E s.log t.world.device <
      s.load E.size + 2 * waitsLeft E s.log s.world.device) :
    t.potential E < s.potential E := by
  have hruns : runsLeft E t = runsLeft E s := Finset.ext fun r => by
    rw [mem_runsLeft, mem_runsLeft, h.hasBegun_iff (fun region => hagenda r region) (by simp)]
  have hcalls : callsLeft E t = callsLeft E s := Finset.ext fun z => by
    rw [mem_callsLeft, mem_callsLeft, hasCompleted, hasCompleted, hlog]
  rw [potential, potential, hruns, hcalls, hlog]
  omega

theorem potential_take {task : Task Empty} {left : Runner (Task Empty)} (E : P.meaning.Extent x k)
    (hm : Move P.backend (.take i task left) s t) : t.potential E < s.potential E := by
  have hload := load_take (n := E.size) hm
  cases hm with | @take _ _ _ _ _ hq hgives => ?_
  have hsp := spawned_of_give s hq hgives s.world.device (World.tasks task) []
  rw [List.append_nil] at hsp
  refine Spawned.potential_lt E hsp rfl (fun r region hmem => ?_) ?_
  · cases task <;> simp [World.tasks] at hmem
  · exact Nat.add_lt_add_right hload _

/-- A call that goes on has one event less to wait for. -/
theorem Accords.waitsLeft_lt (E : P.meaning.Extent x k) (h : s.Accords P.meaning x k s.world.device)
    (hr : ReachableWhile Faithful P.backend s) (hp : s.world.device.waiting c = some p) :
    waitsLeft E s.log (s.world.device.go c p).1 < waitsLeft E s.log s.world.device := by
  have hs := hr.reachable.sound
  obtain ⟨info, act, hflight⟩ := h.waits c (by simp [hp])
  obtain ⟨y, hy, hnode, -, -, hhost, hexecution⟩ := h.site hs hflight.operation
  have hcalls : P.meaning.Calls x c _ (P.meaning.before y c.node) := ⟨y, hy, hnode, rfl⟩
  have hchanges := changes_go (c := c) (d := s.world.device) (h.confined hs hcalls hp)
  have hless : ∀ {a}, turnsLeft P s.log (s.world.device.go c p).1 (c, .leaf info act, a) <
      turnsLeft P s.log s.world.device (c, .leaf info act, a) := fun {a} => by
    obtain ⟨z, hz⟩ := hflight.call
    refine (turnsLeft_go (hs.launched_of_call hz)).trans_lt ?_
    simp only [turnsLeft, hp]
    exact Nat.lt_succ_self _
  refine Finset.sum_lt_sum (fun z hz => ?_)
    ⟨_, (E.mem_calls ..).2 ⟨hhost, hexecution, hcalls⟩, hless⟩
  obtain ⟨c', op', a'⟩ := z
  obtain ⟨-, -, hcalls'⟩ := (E.mem_calls ..).1 hz
  by_cases hcc : c' = c
  · subst hcc
    obtain ⟨rfl, rfl⟩ := hcalls.unique hcalls'
    exact hless.le
  · exact (h.turnsLeft_change hr hflight hchanges hcc hcalls'
      fun p hp => h.confined hs hcalls' hp).le

/-- The event resolves for which a call waits. -/
theorem Accords.potential_resolve (E : P.meaning.Extent x k)
    (h : s.Accords P.meaning x k s.world.device) (hr : ReachableWhile Faithful P.backend s)
    (hc : s.world.device.waiting c ≠ none) (hm : Move P.backend (.outside (Bench.resolve c)) s t) :
    t.potential E < s.potential E := by
  obtain ⟨p, hp⟩ := Option.ne_none_iff_exists'.1 hc
  have hgo : Bench.resolve c s.world.device = s.world.device.go c p := by
    rw [Bench.resolve, hp]
  have hwaits := h.waitsLeft_lt E hr hp
  have hload := World.weigh_go_le (α := α) (n := E.size) (c := c) s.world.device p
  cases hm
  have hsp := spawned_outside s (Bench.resolve c)
  rw [hgo] at hsp ⊢
  refine Spawned.potential_lt E hsp rfl (fun r region hmem => ?_) ?_
  · obtain ⟨e, -, he⟩ := List.mem_map.1 hmem
    cases he
  · simp only [load, spawn, List.map_append, List.map_cons, List.map_nil, List.sum_append,
      List.sum_singleton]
    change _ + 10 * s.world.kept.length + 2 * waitsLeft E s.log (s.world.device.go c p).1 < _
    omega

theorem Accords.potential_lt (E : P.meaning.Extent x k) (h : s.Accords P.meaning x k s.world.device)
    (hr : ReachableWhile Faithful P.backend s) (hp : s.Proceeds P t) :
    t.potential E < s.potential E := by
  cases hp with
  | act hm => exact h.potential_act E hr hm
  | take hm => exact potential_take E hm
  | resolve hc hm => exact h.potential_resolve E hr hc hm

/-! ### Going on -/

/-- However the execution goes on, it comes to be so. -/
inductive Inevitably (P : Conduct α) (Q : Crew α Bench Empty → Prop) : Crew α Bench Empty → Prop
  | now {s : Crew α Bench Empty} (h : Q s) : Inevitably P Q s
  | later {s : Crew α Bench Empty} (hgoes : ∃ t, s.Proceeds P t)
      (h : ∀ t, s.Proceeds P t → Inevitably P Q t) : Inevitably P Q s

/-- An execution that cannot go on is at rest, and waits for nothing. -/
theorem isIdle_of_not_proceeds (h : ¬ ∃ t, s.Proceeds P t) :
    s.IsIdle ∧ ∀ c, s.world.device.waiting c = none := by
  refine ⟨⟨fun items hitems => ?_, ?_⟩, fun c => ?_⟩
  · cases items with
    | nil => rfl
    | cons item rest =>
      obtain ⟨i, hi, hget⟩ := List.getElem_of_mem hitems
      exact absurd ⟨_, .act (.act (List.getElem?_eq_some_iff.2 ⟨hi, hget⟩) rfl)⟩ h
  · by_contra hkept
    obtain ⟨task, htask⟩ := List.exists_mem_of_ne_nil _ hkept
    obtain ⟨q, hq, hmem⟩ := List.mem_flatMap.1 htask
    obtain ⟨i, hi⟩ := List.mem_iff_getElem?.1 hq
    rw [Array.getElem?_toList] at hi
    obtain ⟨t, rest, hgives⟩ := Runner.exists_gives (List.ne_nil_of_mem hmem)
    exact h ⟨_, .take (.take hi hgives)⟩
  · by_contra hc
    exact h ⟨_, .resolve hc (.outside _)⟩

end Crew

end Machine

end OpFlow
