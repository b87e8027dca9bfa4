import OpFlow.Proofs.Operation.Occurrence
import OpFlow.Proofs.Order.Termination

/-!
Concurrent execution refines program order. Whatever threads, runners and events do first, an
execution of which no task gets lost comes to what its program means in program order: to the outcome,
and if that is good, also to the arena; and it does come to it, if loops do come to an end. So a host
with a runner comes to the same as one without.
-/
namespace OpFlow

open Machine

variable {α : Type} [Leaf α]

/-! ### The same operations -/

omit [Leaf α] in
theorem Region.Occurs.congr {p q : Program α} {op : Operation α} (hops : q.ops = p.ops)
    (h : q.Occurs op) : p.Occurs op := by
  induction h with
  | here hop => exact .here (hops ▸ hop)
  | nested _ hregion hinner ih => exact .nested ih hregion hinner

omit [Leaf α] in
theorem Region.Occurs.leaf_of_ops {p : Program α} {op : Operation α}
    (hleaf : ∀ op ∈ p.ops, ∃ info act, op = .leaf info act) (h : p.Occurs op) :
    ∃ info act, op = .leaf info act := by
  induction h with
  | here hop => exact hleaf _ hop
  | nested _ hregion _ ih =>
    obtain ⟨info, act, rfl⟩ := ih
    cases hregion

namespace Meaning

variable {m : Meaning α} {x x' y : Site α} {scope : Scope} {i j : Nat} {op : Operation α}
  {e e' : Error}

theorem Inside.occurs (h : m.Inside x scope y) (hop : op ∈ y.region.ops) : x.region.Occurs op := by
  induction h generalizing op with
  | here => exact .here hop
  | nested _ houter hz ih => exact .nested (ih (List.mem_of_getElem? houter)) hz.mem_nested hop

theorem Calls.occurs {c : CallKey} {a : Arena} (h : m.Calls x c op a) : x.region.Occurs op := by
  obtain ⟨y, hy, hop, -⟩ := h
  exact hy.occurs (List.mem_of_getElem? hop)

theorem before_congr (hops : x'.region.ops = x.region.ops) (harena : x'.arena = x.arena) (j : Nat) :
    m.before x' j = m.before x j := by
  rw [before, before, hops, harena]

theorem Inside.congr (hops : x'.region.ops = x.region.ops) (harena : x'.arena = x.arena)
    (h : m.Inside x' scope y) :
    ∃ z, m.Inside x scope z ∧ y.region.ops = z.region.ops ∧ y.arena = z.arena := by
  induction h with
  | here => exact ⟨x, .here, hops, harena⟩
  | nested _ hop hz ih =>
    obtain ⟨y', hy', hops', harena'⟩ := ih
    exact ⟨_, .nested hy' (hops' ▸ hop) (before_congr hops' harena' _ ▸ hz), rfl, rfl⟩

theorem Terminates.congr (hops : x'.region.ops = x.region.ops) (harena : x'.arena = x.arena)
    (h : m.Terminates x) : m.Terminates x' := fun scope y j op hy hop => by
  obtain ⟨z, hz, hops', harena'⟩ := hy.congr hops harena
  rw [before_congr hops' harena']
  exact h scope z j op hz (hops' ▸ hop)

/-- The operation is the first of its region that fails, and this is its error. -/
structure FailsFirst (m : Meaning α) (x : Site α) (i : Nat) (e : Error) : Prop where
  failed : ∃ op, x.region.ops[i]? = some op ∧ (m.operation op (m.before x i)).2 = .error e
  before : ∀ j < i, ∀ op, x.region.ops[j]? = some op → (m.operation op (m.before x j)).2 = .ok ()

theorem FailsFirst.unique (h : m.FailsFirst x i e) (h' : m.FailsFirst x j e') : j = i ∧ e' = e := by
  obtain ⟨op, hop, he⟩ := h.failed
  obtain ⟨op', hop', he'⟩ := h'.failed
  rcases Nat.lt_trichotomy i j with hlt | rfl | hlt
  · cases he.symm.trans (h'.before i hlt op hop)
  · obtain rfl := Option.some.inj (hop.symm.trans hop')
    exact ⟨rfl, Except.error.inj (he'.symm.trans he)⟩
  · cases he'.symm.trans (h.before j hlt op' hop')

theorem FailsFirst.congr (hops : x'.region.ops = x.region.ops) (harena : x'.arena = x.arena)
    (h : m.FailsFirst x' i e) : m.FailsFirst x i e := by
  obtain ⟨⟨op, hop, he⟩, hbefore⟩ := h
  simp only [before_congr hops harena, hops] at hop he hbefore
  exact ⟨⟨op, hop, he⟩, hbefore⟩

end Meaning

namespace Machine.Crew

variable {s t : Crew α Bench Empty} {m : Meaning α} {P : Conduct α} {x y : Site α} {d : Bench}
  {k : Nat} {r : RunKey} {region : Program α} {o : Outcome}

/-! ### Rest -/

/-- At rest with no event to resolve, what is in flight waits for a nested run. -/
theorem Accords.pending_of_call (h : s.Accords m x k d) (hs : s.Sound) (hidle : s.IsIdle)
    (hwaiting : ∀ c, d.waiting c = none) {c : CallKey} {z : Call} (hz : s.world.call? c = some z) :
    ∃ n, s.Pending (c.nested n) := by
  have hawaited := hidle.awaited_of_call hs hz
  have htokens : s.tokens = [] := List.flatMap_eq_nil_iff.2 fun items hitems => by
    rw [hidle.threads items hitems]
    rfl
  obtain ⟨-, op, hop⟩ := hs.operation_of_call hz
  obtain ⟨y, hy, hnode, -⟩ := h.site hs hop
  cases h.calls c op _ z hz ⟨y, hy, hnode, rfl⟩ with
  | leaf _ hawaits =>
    rcases hawaits.alive (by simp [hawaited]) with hc | ⟨o, items, hitems, hmem⟩
    · exact absurd (hwaiting c) hc
    · rw [hidle.threads items hitems] at hmem
      cases hmem
  | @nests stage hnot hx hstands =>
    have hleaf : ¬ s.IsLeaf c := fun hleaf => by
      obtain ⟨info, act, rfl⟩ := (hs.isLeaf_iff hop).1 hleaf
      exact hnot _ _ rfl
    cases hnested : stage.nested? with
    | some n => exact ⟨n, (hx.nested n).2 hnested⟩
    | none =>
      -- at any other stage some thread would hold the call
      cases stage with
      | inside | started => cases hnested
      | turn => simpa [htokens, Stage.weight] using hx.iterate
      | closing o => simpa [htokens, Stage.weight] using hx.iterated
      | settling o => simpa [htokens, Stage.weight] using hx.settle hleaf o
      | quiet =>
        cases hstands with
        | settled => cases hawaited
        | turning hx => cases hx

/-- A quiet run of which no task got lost has been resolved. -/
theorem IsQuiet.exists_resolved {b : Backend α Bench Empty} (hquiet : s.IsQuiet r)
    (h : Reachable b s) (hkept : ∀ j, .dropped ⟨r, j⟩ ∉ s.log) (hbegun : (r, region) ∈ s.begun) :
    ∃ o, .resolved r o ∈ s.log := by
  have hresolved : ∀ {o}, (s.view r).count (.closing o) + (s.view r).count (.resolved o) = 1 →
      ∃ o, .resolved r o ∈ s.log := fun {o} hsum => by
    have hclosing : (s.view r).count (.closing o) = 0 := hquiet.count_eq_zero rfl
    rw [hclosing, count_resolved] at hsum
    exact ⟨o, List.count_pos_iff.1 (by omega)⟩
  cases h.sound.run r with
  | idle hv =>
    rw [mem_begun_iff, hv.regions] at hbegun
    cases hbegun
  | empty hv => exact hresolved hv.closing
  | ordered hv =>
    obtain ⟨o, ho, -⟩ := Sequences.concludes h
      ⟨mem_begun_iff.2 (by simp [hv.regions]), hv.ordered⟩ hquiet
    exact ⟨o, ho⟩
  | @scheduled region' st t holders fin hv =>
    have hdropped : ∀ j, st j ≠ .dropped := fun j hj => by
      have := (hv.shown j).fixed .dropped rfl
      rw [marks_dropped, hj, List.count_eq_zero_of_not_mem (hkept _)] at this
      cases this
    obtain ⟨o, rfl⟩ := hv.exists_fin fun j hj =>
      hv.isDone_of_still (hquiet.isStill hv) hdropped hj
    exact hresolved ((hv.closing o).trans (if_pos rfl))

/-- A crew at rest with no event to resolve has resolved all its runs: by induction on the region,
since what is in flight of a run waits for a run inside it. -/
theorem Accords.resolved (h : s.Accords m x k d) (hr : ReachableWhile Faithful P.backend s)
    (hkept : ∀ c, .dropped c ∉ s.log) (hidle : s.IsIdle) (hwaiting : ∀ c, d.waiting c = none)
    (hbegun : (r, region) ∈ s.begun) : ∃ o, .resolved r o ∈ s.log := by
  have hs := hr.reachable.sound
  induction hsize : sizeOf region using Nat.strong_induction_on generalizing region r with
  | _ size ih =>
    refine IsQuiet.exists_resolved ⟨fun items hitems item hmem => ?_, fun node hmem => ?_,
      fun node => ?_⟩ hr.reachable (fun j => hkept _) hbegun
    · rw [hidle.threads items hitems] at hmem
      cases hmem
    · rw [hidle.kept] at hmem
      cases hmem
    · by_contra hsome
      obtain ⟨z, hz⟩ := Option.ne_none_iff_exists'.1 hsome
      obtain ⟨n, hpending⟩ := h.pending_of_call hs hidle hwaiting hz
      obtain ⟨inner, hinner⟩ := hs.exists_hasRegion hpending.1
      replace hinner : (CallKey.nested ⟨r, node⟩ n, inner) ∈ s.begun := by
        refine hinner.resolve_right fun ⟨items, hitems, hmem⟩ => ?_
        rw [hidle.threads items hitems] at hmem
        cases hmem
      obtain ⟨op, ⟨region', hmem', hnode⟩, hnested⟩ := hr.reachable.mem_nested (.inl hinner)
      obtain rfl := hs.region_unique hbegun hmem'
      have hlt := sizeOf_lt_of_mem_nested (List.mem_of_getElem? hnode) hnested
      obtain ⟨o, ho⟩ := ih _ (hsize ▸ hlt) hinner rfl
      exact hpending.2 o ho

/-! ### Outcomes -/

theorem Move.hasRegion {b : Backend α Bench Empty} {ch : Choice Bench Empty} (hm : Move b ch s t)
    (hs : s.Sound) (hr : s.HasRegion r region) : t.HasRegion r region := by
  rcases hm.spawned with ⟨i, item, rest, w, hi, hw, rfl⟩ | ⟨tasks, agenda, events, hsp, -⟩
  · obtain ⟨items, tasks, run, call, hb, -⟩ := World.step_cases rfl hw fun r region hr =>
      hs.known r (hasBegun_of_head (hr ▸ hi))
    exact hr.after hi hb
  · rcases hr with hr | ⟨items, hitems, hmem⟩
    · exact .inl (hsp.begun.symm ▸ hr)
    · exact .inr ⟨items, hsp.threads.symm ▸ List.mem_append_left _ hitems, hmem⟩

variable {w w' : World α Bench Empty} {host host' : Host α} {k' : Nat} {s' : Crew α Bench Empty}

theorem Executes.reachable (h : Executes P w k s) : Reachable P.backend s := by
  induction h with
  | start hw => exact (Reachable.fresh hw).execute k
  | proceed _ hp ih =>
    obtain ⟨_, hm⟩ := hp.exists_move
    exact ih.move hm

theorem Executes.hasRegion (h : Executes P w k s) (hk : w.hosts[k]? = some host) :
    s.HasRegion ⟨k, 0, []⟩ host.program := by
  induction h with
  | start hw =>
    refine .inr ⟨[.start ⟨k, 0, []⟩ host.program], ?_, List.mem_singleton_self _⟩
    have hexecutions : host.executions = #[] := hw.executions host (Array.mem_of_getElem? hk)
    rw [execute, hk]
    dsimp only
    rw [hexecutions]
    exact List.mem_singleton_self _
  | proceed hs hp ih =>
    obtain ⟨_, hm⟩ := hp.exists_move
    exact hm.hasRegion hs.reachable.sound ih

theorem Executes.runner (h : Executes P w k s) (hk : w.hosts[k]? = some host) :
    s.world.runnerOf? k = host.runner := by
  induction h with
  | start =>
    have hsp := spawned_of_execute ({ world := w } : Crew α Bench Empty) hk
    rw [execute, hk]
    rw [hsp.runner, World.runnerOf?, hk]
    rfl
  | proceed hs hp ih =>
    obtain ⟨_, hm⟩ := hp.exists_move
    rw [hm.runner hs.reachable.sound, ih]

/-- Only a run that goes by its graph loses tasks. -/
theorem Sound.concurrent_of_dropped {c : CallKey} (hs : s.Sound) (hc : .dropped c ∈ s.log) :
    (s.world.runnerOf? c.run.host).isSome ∧ ∃ region, (c.run, region) ∈ s.begun := by
  have hpos : 0 < (s.view c.run).marks c.node .dropped := by
    rw [marks_dropped]
    exact List.count_pos_iff.2 hc
  cases hs.run c.run with
  | idle hv =>
    rw [show (s.view c.run).marks c.node .dropped = 0 from hv.count _ (by simp)] at hpos
    cases hpos
  | empty hv =>
    rw [show (s.view c.run).marks c.node .dropped = 0 from
      hv.count _ (by simp) (by simp) (by simp)] at hpos
    cases hpos
  | @ordered _ st _ hv =>
    rw [(hv.shown c.node).fixed .dropped rfl] at hpos
    cases hst : st c.node <;> simp [hst, NodeState.weight] at hpos
    have := hv.follows.taken c.node (by rw [hst]; rfl)
    rw [hst] at this
    cases this
  | @scheduled region _ _ _ _ hv =>
    exact ⟨hv.concurrent, region, mem_begun_iff.2 (by simp [hv.regions])⟩

/-- A host without a runner loses no task. -/
theorem Executes.kept_of_runner (h : Executes P w k s) (hk : w.hosts[k]? = some host)
    (hrunner : host.runner = none) (hchooses : ∀ op, host.program.Occurs op → op.Chooses)
    (c : CallKey) : .dropped c ∉ s.log := by
  induction h generalizing c with
  | start =>
    rw [execute, hk]
    exact List.not_mem_nil
  | @proceed s t hs hp ih =>
    intro hc
    obtain ⟨hr, hacc⟩ := hs.accords hk ih fun c op a hcalls => hchooses op hcalls.occurs
    obtain ⟨hsome, region, hbegun⟩ := (hs.proceed hp).reachable.sound.concurrent_of_dropped hc
    have hhost : c.run.host = k := by
      cases hp with
      | act hm =>
        obtain @⟨_, _, item, rest, w, hn, hw⟩ := hm
        obtain ⟨items, tasks, run, call, hdoes⟩ := hr.reachable.sound.exists_does hn hw
        exact (hacc.sited_after hdoes (.inl hbegun)).1
      | take hm =>
        cases hm
        exact absurd hc (ih c)
      | resolve _ hm =>
        cases hm
        exact absurd hc (ih c)
    rw [hhost, (hs.proceed hp).runner hk, hrunner] at hsome
    cases hsome

/-- What an execution has come to when it has an outcome. -/
structure Achieves (m : Meaning α) (x : Site α) (k : Nat) (s : Crew α Bench Empty) (o : Outcome) :
    Prop where
  outcome : (m.region x.region x.arena).2 = o
  arena : o = .ok () → s.world.device.arena = (m.region x.region x.arena).1
  failed : ∀ e, o = .error e → ∃ i e', m.FailsFirst x i e' ∧ s.FirstFailure ⟨k, 0, []⟩ i e'

theorem Executes.achieves (h : Executes P w k s) (hk : w.hosts[k]? = some host)
    (hkept : ∀ c, .dropped c ∉ s.log)
    (hchooses : ∀ op, host.program.Occurs op → op.Chooses)
    (ho : s.world.outcome? k 0 = some o) :
    s.Achieves P.meaning ⟨host.program, w.device.arena⟩ k o := by
  obtain ⟨hr, hacc⟩ := h.accords hk hkept fun c op a hcalls => hchooses op hcalls.occurs
  have hs := hr.reachable.sound
  have hresolved := hr.reachable.resolved_of_outcome ho
  obtain ⟨region, hbegun⟩ := hs.exists_begun hresolved
  obtain ⟨-, -, y, hy, rfl⟩ := hacc.sited _ _ (.inl hbegun)
  cases hy
  have hto := hr.reachable.ranTo (fun j => hkept _) hbegun hresolved
  refine ⟨hacc.outcome_of_ranTo (r := ⟨k, 0, []⟩) .here hto, fun ho => ?_, fun e he => ?_⟩
  · subst ho
    have hslots : s.world.device.arena.slots =
        (P.meaning.region host.program w.device.arena).1.slots := Array.ext_getElem? fun i =>
      hacc.slot_of_ranTo (.inl rfl) .here hto fun c n op a hkey => by
        cases congrArg RunKey.scope hkey
    exact congrArg Arena.mk hslots
  · have hended : ∀ {j op o}, .ended ⟨⟨k, 0, []⟩, j⟩ o ∈ s.log →
        host.program.ops[j]? = some op → (P.meaning.operation op (P.meaning.before
          ⟨host.program, w.device.arena⟩ j)).2 = o := fun hlog hop =>
      hacc.ended _ _ _ _ hlog ⟨_, .here, hop, rfl⟩
    cases hto with
    | well => cases he
    | @badly i op e' hop hbefore hfailed =>
      refine ⟨i, e', ⟨⟨op, hop, hended hfailed hop⟩, fun j hj op hop => hended (hbefore j hj) hop⟩,
        hfailed, ?_⟩
      rintro j hj ⟨e'', hfailed'⟩
      cases hs.ended_unique (hbefore j hj) hfailed'

theorem Executes.exists_outcome (h : Executes P w k s) (hk : w.hosts[k]? = some host)
    (hkept : ∀ c, .dropped c ∉ s.log) (hchooses : ∀ op, host.program.Occurs op → op.Chooses)
    (hstuck : ¬ ∃ t, s.Proceeds P t) : ∃ o, s.world.outcome? k 0 = some o := by
  obtain ⟨hr, hacc⟩ := h.accords hk hkept fun c op a hcalls => hchooses op hcalls.occurs
  obtain ⟨hidle, hwaiting⟩ := isIdle_of_not_proceeds hstuck
  have hbegun : (⟨k, 0, []⟩, host.program) ∈ s.begun := by
    refine (h.hasRegion hk).resolve_right fun ⟨items, hitems, hmem⟩ => ?_
    rw [hidle.threads items hitems] at hmem
    cases hmem
  obtain ⟨o, ho⟩ := hacc.resolved hr hkept hidle hwaiting hbegun
  exact ⟨o, hr.reachable.outcome (r := ⟨k, 0, []⟩) rfl ho⟩

/-- However an execution of a program that terminates goes on, it loses a task or comes to an
outcome. -/
theorem Executes.inevitably (h : Executes P w k s) (hk : w.hosts[k]? = some host)
    (hchooses : ∀ op, host.program.Occurs op → op.Chooses)
    (hterminates : P.meaning.Terminates ⟨host.program, w.device.arena⟩) :
    s.Inevitably P fun t => (∃ c, .dropped c ∈ t.log) ∨
      Executes P w k t ∧ (∀ c, .dropped c ∉ t.log) ∧ ∃ o, t.world.outcome? k 0 = some o := by
  obtain ⟨E⟩ := hterminates.exists_extent k
  induction hsize : s.potential E using Nat.strong_induction_on generalizing s with
  | _ size ih =>
    by_cases hdropped : ∃ c, .dropped c ∈ s.log
    · exact .now (.inl hdropped)
    have hkept : ∀ c, .dropped c ∉ s.log := fun c hc => hdropped ⟨c, hc⟩
    by_cases hgoes : ∃ t, s.Proceeds P t
    · obtain ⟨hr, hacc⟩ := h.accords hk hkept fun c op a hcalls => hchooses op hcalls.occurs
      exact .later hgoes fun t ht => ih _ (hsize ▸ hacc.potential_lt E hr ht) (h.proceed ht) rfl
    · exact .now (.inr ⟨h, hkept, h.exists_outcome hk hkept hchooses hgoes⟩)

theorem Inevitably.mono {Q Q' : Crew α Bench Empty → Prop} (h : s.Inevitably P Q)
    (hQ : ∀ t, Q t → Q' t) : s.Inevitably P Q' := by
  induction h with
  | now h => exact .now (hQ _ h)
  | later hgoes _ ih => exact .later hgoes ih

/-- Where there is no runner no operation fails but the first that does. -/
theorem Executes.failed_unique {i j : Nat} {e e' : Error} (h : Executes P w k s)
    (hk : w.hosts[k]? = some host) (hrunner : host.runner = none)
    (hi : s.FirstFailure ⟨k, 0, []⟩ i e) (hj : .ended ⟨⟨k, 0, []⟩, j⟩ (.error e') ∈ s.log) :
    j = i ∧ e' = e := by
  have hs := h.reachable.sound
  have hlaunched := hs.launched_of_ended hj
  obtain ⟨region, hbegun⟩ : ∃ region, (⟨k, 0, []⟩, region) ∈ s.begun := by
    obtain ⟨region, hbegun, -⟩ := hs.exists_region_of_completes (c := ⟨⟨k, 0, []⟩, j⟩) hj rfl
    exact ⟨region, hbegun⟩
  have hseq : s.Sequences ⟨k, 0, []⟩ region := ⟨hbegun, fun hsome => by
    rw [h.runner hk, hrunner] at hsome
    cases hsome⟩
  rcases Nat.lt_trichotomy j i with hlt | rfl | hlt
  · exact absurd ⟨e', hj⟩ (hi.first j hlt)
  · exact ⟨rfl, Except.error.inj (hs.ended_unique hi.failed hj)⟩
  · cases hs.ended_unique hi.failed ((hseq.of_launched (hs.run _) hlaunched).2.2 i hlt).2

/-! ### Refinement -/

/-- An execution has come to the same outcome as another one that takes its operations in order, and
to the same arena if that is good, or else to the failure of the same operation, the only one of the
other that has failed. -/
structure Matches (s : Crew α Bench Empty) (k : Nat) (o : Outcome) (k' : Nat)
    (t : Crew α Bench Empty) : Prop where
  outcome : t.world.outcome? k' 0 = some o
  arena : o = .ok () → t.world.device.arena = s.world.device.arena
  failed : ∀ e, o = .error e → ∃ i e', t.FirstFailure ⟨k', 0, []⟩ i e' ∧
    ∀ j e'', .ended ⟨⟨k, 0, []⟩, j⟩ (.error e'') ∈ s.log ↔ j = i ∧ e'' = e'

/-- Concurrent execution refines program order. When an execution without a runner has an outcome, any
other execution of the same operations on the same arena that has one, in whatever way they are
scheduled, has the same outcome: the same arena, or the same error of the same operation. However it
goes on, it comes to this outcome unless a task gets lost, if its loops come to an end. -/
theorem Executes.refines (h : Executes P w k s) (hk : w.hosts[k]? = some host)
    (hrunner : host.runner = none) (ho : s.world.outcome? k 0 = some o)
    (hchooses : ∀ op, host.program.Occurs op → op.Chooses) (h' : Executes P w' k' t)
    (hk' : w'.hosts[k']? = some host') (hops : host'.program.ops = host.program.ops)
    (harena : w'.device.arena = w.device.arena) :
    ((∀ c, .dropped c ∉ t.log) → ∀ o', t.world.outcome? k' 0 = some o' → s.Matches k o k' t) ∧
    (P.meaning.Terminates ⟨host.program, w.device.arena⟩ →
      t.Inevitably P fun u => (∃ c, .dropped c ∈ u.log) ∨ s.Matches k o k' u) := by
  have hchooses' : ∀ op, host'.program.Occurs op → op.Chooses := fun op hop =>
    hchooses op (hop.congr hops)
  have hs := h.achieves hk (h.kept_of_runner hk hrunner hchooses) hchooses ho
  have hmatches : ∀ {t}, Executes P w' k' t → (∀ c, .dropped c ∉ t.log) →
      ∀ o', t.world.outcome? k' 0 = some o' → s.Matches k o k' t := fun {t} ht hkept o' ho' => by
    have ht := ht.achieves hk' hkept hchooses' ho'
    have hregion : P.meaning.region host'.program w'.device.arena =
        P.meaning.region host.program w.device.arena := by
      rw [Meaning.region_eq, Meaning.region_eq, hops, harena]
    obtain rfl : o' = o := by rw [← ht.outcome, ← hs.outcome, hregion]
    refine ⟨ho', fun hgood => ?_, fun e he => ?_⟩
    · rw [ht.arena hgood, hs.arena hgood, hregion]
    · obtain ⟨i, e', hfails, hfirst⟩ := hs.failed e he
      obtain ⟨i', e'', hfails', hfirst'⟩ := ht.failed e he
      obtain ⟨rfl, rfl⟩ := hfails.unique (hfails'.congr hops harena)
      refine ⟨_, _, hfirst', fun j e'' => ⟨h.failed_unique hk hrunner hfirst, ?_⟩⟩
      rintro ⟨rfl, rfl⟩
      exact hfirst.failed
  refine ⟨hmatches h', fun hterminates => ?_⟩
  refine (h'.inevitably hk' hchooses' (hterminates.congr hops harena)).mono fun u hu => ?_
  exact hu.imp id fun ⟨hu, hkept, o', ho'⟩ => hmatches hu hkept o' ho'

end Machine.Crew

/-! ### An example -/

/-- Copies are done at once and end with an event; nothing else does anything. -/
def copying : Conduct Primitive where
  process
    | .copy src dst => .going (fun a => (Arena.attempt (fun a => a.copy src dst) a).1) fun a =>
        .going id fun _ => .ended (Arena.attempt (fun a => a.copy src dst) a).2
    | _ => .ended (.ok ())
  confined op := by
    cases op with
    | copy src dst =>
      exact ⟨(Primitive.confines_copy src dst).andThen
        (k := fun o a => (a, Process.going id fun _ => .ended o)) fun _ => .same fun _ _ _ => rfl,
        fun _ => ⟨.same fun _ _ _ => rfl, fun _ => trivial⟩⟩
    | _ => trivial

namespace Machine.Crew

variable {P : Conduct α} {w : World α Bench Empty} {k : Nat} {s : Crew α Bench Empty}

theorem Executes.acts (h : Executes P w k s) (i n : Nat) :
    Executes P w k ((Crew.act P.backend i)^[n] s) := by
  induction n generalizing s with
  | zero => exact h
  | succ n ih =>
    refine ih ?_
    rcases act_cases P.backend s i with heq | hm
    · rwa [heq]
    · exact h.proceed (.act hm)

def wake (c : CallKey) (s : Crew α Bench Empty) : Crew α Bench Empty :=
  ({ s with world := { s.world with device := (Bench.resolve c s.world.device).1 } }).spawn
    ((Bench.resolve c s.world.device).2.map .effect)

theorem Executes.wake {c : CallKey} (h : Executes P w k s)
    (hc : (s.world.device.waiting c).isSome) : Executes P w k (s.wake c) :=
  h.proceed (.resolve (Option.isSome_iff_ne_none.1 hc) (.outside _))

def threeCopies : Program Primitive where
  ops := [
    .leaf { name := "a" } (.copy ⟨0, 0, 1⟩ ⟨1, 0, 1⟩),
    .leaf { name := "b" } (.copy ⟨2, 0, 1⟩ ⟨3, 0, 1⟩),
    .leaf { name := "c" } (.copy ⟨1, 0, 1⟩ ⟨2, 0, 1⟩)]

def copies (runner : Option Nat) : World Primitive Bench Empty where
  device := { arena := .ofSlots [[1], [2], [3], [4]] }
  runners := #[.inline]
  hosts := #[{ program := threeCopies, runner }]

def outer (j : Nat) : CallKey := ⟨⟨0, 0, []⟩, j⟩

def copiedInOrder : Crew Primitive Bench Empty :=
  (Crew.act copying.backend 3)^[2] <| wake (outer 2) <|
    (Crew.act copying.backend 2)^[3] <| wake (outer 1) <|
      (Crew.act copying.backend 1)^[3] <| wake (outer 0) <|
        (Crew.act copying.backend 0)^[3] (execute 0 { world := copies none })

/-- The copies have been executed by the runner, and the event of the second has resolved first. -/
def copiedByRunner : Crew Primitive Bench Empty :=
  (Crew.act copying.backend 3)^[8] <| wake (outer 2) <|
    (Crew.act copying.backend 2)^[8] <| wake (outer 0) <|
      (Crew.act copying.backend 1)^[8] <| wake (outer 1) <|
        (Crew.act copying.backend 0)^[12] (execute 0 { world := copies (some 0) })

theorem executes_copies (runner : Option Nat) :
    Executes copying (copies runner) 0 (execute 0 { world := copies runner }) :=
  .start ⟨rfl, by simp [copies], by simp [copies, Runner.queued]⟩ (fun _ => rfl) rfl

theorem executes_copiedInOrder : Executes copying (copies none) 0 copiedInOrder := by
  refine .acts (.wake (.acts (.wake (.acts (.wake (.acts (executes_copies none) ..) ?_) ..) ?_) ..)
    ?_) .. <;> decide +kernel

theorem executes_copiedByRunner : Executes copying (copies (some 0)) 0 copiedByRunner := by
  refine .acts (.wake (.acts (.wake (.acts (.wake (.acts (executes_copies (some 0)) ..) ?_) ..) ?_) ..)
    ?_) .. <;> decide +kernel

/-- Both ways come to the same, and so does every other. -/
theorem refines_copies : copiedInOrder.world.outcome? 0 0 = some (.ok ()) ∧
    copiedByRunner.world.outcome? 0 0 = some (.ok ()) ∧
    copiedByRunner.world.device.arena = copiedInOrder.world.device.arena ∧
    (execute 0 { world := copies (some 0) }).Inevitably copying fun u =>
      (∃ c, .dropped c ∈ u.log) ∨ copiedInOrder.Matches 0 (.ok ()) 0 u := by
  have ho : copiedInOrder.world.outcome? 0 0 = some (.ok ()) := by decide +kernel
  have hleaf : ∀ op, threeCopies.Occurs op → ∃ info act, op = .leaf info act := fun op =>
    Region.Occurs.leaf_of_ops (by simp [threeCopies])
  have hchooses : ∀ op, threeCopies.Occurs op → op.Chooses := fun op hop => by
    obtain ⟨info, act, rfl⟩ := hleaf op hop
    trivial
  have ho' : copiedByRunner.world.outcome? 0 0 = some (.ok ()) := by decide +kernel
  have hkept : ∀ c, .dropped c ∉ copiedByRunner.log := not_dropped_of_all (by decide +kernel)
  obtain ⟨hmatches, -⟩ := executes_copiedInOrder.refines rfl rfl ho hchooses executes_copiedByRunner
    rfl rfl rfl
  obtain ⟨-, hinevitably⟩ := executes_copiedInOrder.refines rfl rfl ho hchooses
    (executes_copies (some 0)) rfl rfl rfl
  refine ⟨ho, ho', (hmatches hkept _ ho').arena rfl, hinevitably fun scope y j op hy hop => ?_⟩
  obtain ⟨info, act, rfl⟩ := hleaf op (hy.occurs (List.mem_of_getElem? hop))
  trivial

end Machine.Crew

end OpFlow
