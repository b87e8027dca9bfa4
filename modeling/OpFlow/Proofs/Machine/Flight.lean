import Mathlib.Logic.Relation
import OpFlow.Proofs.Footprint
import OpFlow.Proofs.Machine.Containment
import OpFlow.Proofs.Machine.StageMoves

/-!
Operations in flight do not conflict, however deep inside other operations they are. Those of one run
are kept apart by its graph or by its order. What is inside an operation touches only what that one
declares, and it stays in flight as long as a nested run of it goes on; so two operations inside
others are kept apart by those around them, unless these are the same.
-/
namespace OpFlow.Machine

variable {α σ ι : Type}

/-- An operation goes on inside a nested run of another one, at any depth. -/
def CallKey.Encloses : CallKey → CallKey → Prop :=
  Relation.TransGen fun d c => c.run.caller? = some d

theorem CallKey.length_scope_of_caller? {d c : CallKey} (h : c.run.caller? = some d) :
    c.run.scope.length = d.run.scope.length + 1 := by
  obtain ⟨n, hn⟩ := RunKey.eq_nested h
  rw [hn]
  rfl

theorem CallKey.Encloses.length_lt {d c : CallKey} (h : d.Encloses c) :
    d.run.scope.length < c.run.scope.length := by
  induction h with
  | single hd =>
    have := CallKey.length_scope_of_caller? hd
    omega
  | tail _ hd ih =>
    have := CallKey.length_scope_of_caller? hd
    omega

theorem NodeState.isTaken_of_launched {x : NodeState} (h : 0 < x.weight .launched) : x.isTaken := by
  cases x <;> simp_all [NodeState.isTaken]

theorem NodeState.isWaiting_of_isTaken {x : NodeState} (h : x.isTaken) : x.isWaiting = false := by
  cases x <;> simp_all [isTaken, isWaiting]

theorem NodeState.eq_ended_of_endsWith {x : NodeState} {o : Outcome} (h : x.endsWith o) :
    x = .ended o := by
  cases x <;> simp_all [endsWith]

theorem NodeState.weight_launched_le (x : NodeState) : x.weight .launched ≤ 1 := by
  cases x <;> simp

/-- The runs that an item begins are nested runs of operations that have their regions. -/
theorem CallMove.start_mem {b : Backend α σ ι} {w : World α σ ι} {item : Item α ι}
    {items : List (Item α ι)} {call : CallKey → Option Call} {r : RunKey} {region : Program α}
    (h : CallMove b w item items call) (hm : .start r region ∈ items) :
    ∃ c n op, r = c.nested n ∧ w.operation? c = some op ∧ region ∈ op.nested := by
  have hplain : (∀ x ∈ items, Item.IsPlain x) → False := fun hall => (hall _ hm).start _ _ rfl
  cases h with
  | spares _ hitems => exact (hplain hitems).elim
  | ended _ hitems => exact (hplain hitems).elim
  | @called c op opening l hop hopens =>
    refine ⟨c, ?_⟩
    cases hopens with
    | body =>
      obtain ⟨rfl, rfl⟩ : r = c.nested 0 ∧ region = _ := by simpa using hm
      exact ⟨0, _, rfl, hop, List.mem_singleton_self _⟩
    | branch hread hb =>
      obtain ⟨rfl, rfl⟩ : r = c.nested 0 ∧ region = _ := by simpa using hm
      exact ⟨0, _, rfl, hop, List.mem_of_getElem? hb⟩
    | _ => simp at hm
  | @turns c p l l' items info predicate condition body trips hop hc hturns =>
    refine ⟨c, l.started, .loop info predicate condition body trips, ?_⟩
    cases hturns with
    | finished => simp at hm
    | body =>
      obtain ⟨rfl, rfl⟩ : r = c.nested l.started ∧ region = body := by simpa using hm
      exact ⟨rfl, hop, by simp [Operation.nested]⟩
    | condition =>
      obtain ⟨rfl, rfl⟩ : r = c.nested l.started ∧ region = condition := by simpa using hm
      exact ⟨rfl, hop, by simp [Operation.nested]⟩
  | advances _ _ hadv | goesOn _ _ _ hadv => cases hadv <;> simp at hm
  | passed => simp at hm
  | _ => cases hm

/-- An item notes at most one event. -/
theorem World.length_noted_le (w : World α σ ι) (item : Item α ι) : (w.noted item).length ≤ 1 := by
  cases item with
  | effect e =>
    cases e with
    | settle c o =>
      simp only [World.noted]
      split <;> simp
    | _ => simp [World.noted]
  | visit r node =>
    simp only [World.noted]
    split
    · split <;> simp
    · simp
  | submit | call | returned | settle | iterate =>
    simp only [World.noted]
    split <;> simp
  | _ => simp [World.noted]

namespace Crew

variable [Leaf α] {b : Backend α σ ι} {s : Crew α σ ι} {r : RunKey} {region : Program α}
  {c c' d : CallKey} {i j : Nat} {y y' : Call} {op op' : Operation α}

/-! ### One run -/

/-- An operation is not called before those have ended well with which it conflicts and which come
before it. -/
theorem RunSound.ended_of_launched (h : s.RunSound r) (hr : (r, region) ∈ s.begun) (hij : i < j)
    (hc : region.graph.conflicts i j) (hj : .launched ⟨r, j⟩ ∈ s.log) :
    .ended ⟨r, i⟩ (.ok ()) ∈ s.log ∧ s.world.call? ⟨r, i⟩ = none := by
  have hlaunched : 0 < (s.view r).marks j .launched := by
    rw [marks_launched]
    exact List.count_pos_iff.2 hj
  have hended : ∀ {x : NodeState}, x.Shown ((s.view r).progress i) ((s.view r).marks i) →
      x = .ended (.ok ()) → .ended ⟨r, i⟩ (.ok ()) ∈ s.log ∧ s.world.call? ⟨r, i⟩ = none := by
    rintro x hx rfl
    have hmark := hx.fixed (.ended (.ok ())) rfl
    rw [marks_ended] at hmark
    exact ⟨List.count_pos_iff.1 (by simp [hmark]), by
      simpa [view, NodeState.progress?] using hx.progress⟩
  rw [mem_begun_iff] at hr
  cases h with
  | idle h => rw [h.regions] at hr; cases hr
  | empty h =>
    rw [show (s.view r).marks j .launched = 0 from h.count _ (by simp) (by simp) (by simp)]
      at hlaunched
    cases hlaunched
  | @ordered region' st fin h =>
    have htaken : (st j).isTaken :=
      NodeState.isTaken_of_launched ((h.shown j).fixed .launched rfl ▸ hlaunched)
    have hwait := NodeState.isWaiting_of_isTaken htaken
    exact hended (h.shown i)
      (NodeState.eq_ended_of_endsWith (((h.follows.due j).1 hwait).2 i hij))
  | @scheduled region' st t holders fin h =>
    rw [h.regions, List.mem_singleton] at hr
    subst hr
    have htaken : (st j).isTaken :=
      NodeState.isTaken_of_launched ((h.shown j).fixed .launched rfl ▸ hlaunched)
    have hwait := NodeState.isWaiting_of_isTaken htaken
    have hreach := Graph.reaches_build_of_conflicts hij hc
    have hdone := h.isDone_of_reaches hwait hreach
    have hgood := h.follows.isBad_eq_false_of_reaches hreach htaken
    refine hended (h.shown i) ?_
    cases hst : st i with
    | ended o => cases o <;> simp_all [NodeState.isBad]
    | _ => simp_all [NodeState.isDone, NodeState.isBad]

/-- So an operation is called only later than those end well with which it conflicts and which come
before it. -/
theorem Reachable.ended_before_launched (h : Reachable b s) (hr : (r, region) ∈ s.begun)
    (hij : i < j) (hc : region.graph.conflicts i j) {pre post : List Event}
    (hlog : s.log = pre ++ .launched ⟨r, j⟩ :: post) : .ended ⟨r, i⟩ (.ok ()) ∈ pre := by
  induction h generalizing pre post with
  | fresh => simp at hlog
  | @move s t ch hreach hm ih =>
    have hs := hreach.sound
    have ht := (hreach.move hm).sound
    have hmem : .launched ⟨r, j⟩ ∈ t.log := by rw [hlog]; simp
    have hended := ((ht.run r).ended_of_launched hr hij hc hmem).1
    rcases hm.spawned with ⟨k, item, rest, w, hk, hw, rfl⟩ | ⟨tasks, agenda, events, hsp, hl, -, he⟩
    · have hlog' : s.log ++ s.world.noted item = pre ++ .launched ⟨r, j⟩ :: post := hlog
      have hle := s.world.length_noted_le item
      -- either this item calls the operation, and then nothing else is noted, or it was called before
      have hnow : ∀ pre' post', s.world.noted item = pre' ++ .launched ⟨r, j⟩ :: post' →
          .ended ⟨r, i⟩ (.ok ()) ∈ s.log := fun pre' post' hnoted => by
        rw [hnoted] at hle
        obtain ⟨rfl, rfl⟩ : pre' = [] ∧ post' = [] := by
          simp only [List.length_append, List.length_cons] at hle
          exact ⟨List.length_eq_zero_iff.1 (by omega), List.length_eq_zero_iff.1 (by omega)⟩
        have hended' : .ended ⟨r, i⟩ (.ok ()) ∈ s.log ++ s.world.noted item := hended
        simpa [hnoted] using hended'
      rcases List.append_eq_append_iff.1 hlog' with ⟨pre', rfl, hnoted⟩ | ⟨post', hold, hpost⟩
      · exact List.mem_append_left _ (hnow _ _ hnoted)
      · cases post' with
        | nil => rw [← List.append_nil pre, ← hold]; exact hnow [] post hpost.symm
        | cons e post' =>
          obtain rfl : _ = e := (List.cons.inj hpost).1
          refine ih ?_ hold
          rcases List.mem_append.1 hr with hr | hr
          · exact hr
          · obtain rfl : item = .start r region := by cases item <;> simp_all [Item.begins]
            have hnone := (hs.idle_of_start hk).count (.node j .launched) (by simp)
            rw [show (s.view r).count (.node j .launched) = _ from marks_launched s r j,
              List.count_eq_zero] at hnone
            exact absurd (by rw [hold]; simp) hnone
    · rw [hsp.begun] at hr
      rcases List.append_eq_append_iff.1 (hl.symm.trans hlog) with ⟨pre', rfl, hevents⟩ |
        ⟨post', hold, hpost⟩
      · obtain ⟨c, hc⟩ := he (.launched ⟨r, j⟩) (by rw [hevents]; simp)
        cases hc
      · cases post' with
        | nil =>
          obtain ⟨c, hc⟩ := he (.launched ⟨r, j⟩) (by rw [← List.nil_append events, ← hpost]; simp)
          cases hc
        | cons e post' =>
          obtain rfl : _ = e := (List.cons.inj hpost).1
          exact ih hr hold

theorem Sound.conflict?_eq_none (hs : s.Sound) {rest : List (Item α ι)} {t : Schedule} {holders : Nat}
    (hi : s.threads[i]? = some (.visit r j :: rest))
    (hrun : s.world.run? r = some ⟨region, .scheduled t holders⟩) : t.conflict? j = none := by
  have hturn : 0 < (s.view r).marks j .turn := count_pos_of_head hi rfl
  rcases (hs.run r).not_idle hi rfl with ⟨region', st, fin, h⟩ | ⟨region', st, t', holders', fin, h, -⟩
  · rw [(h.marks_due j).1] at hturn
    cases hturn
  · obtain ⟨heq, -⟩ := h.eq_of_run_eq (show (s.view r).run = _ from hrun)
    obtain ⟨rfl, hmode⟩ := Run.mk.inj heq
    obtain ⟨rfl, rfl⟩ := RunMode.scheduled.inj hmode
    exact h.conflict?_eq_none ((h.shown j).eq_due (by omega))

/-- An operation has been called and has not ended. -/
structure InFlight (s : Crew α σ ι) (c : CallKey) (op : Operation α) : Prop where
  call : ∃ y, s.world.call? c = some y
  operation : s.world.operation? c = some op

theorem Sound.launched_of_call (hs : s.Sound) (hy : s.world.call? c = some y) :
    .launched c ∈ s.log := by
  have hp : (s.view c.run).progress c.node = some y.progress := by
    change (s.world.call? c).map Call.progress = _
    rw [hy]
    rfl
  have hfound : ∀ {x : NodeState},
      x.Shown ((s.view c.run).progress c.node) ((s.view c.run).marks c.node) →
        .launched c ∈ s.log := fun {x} hx => by
    have hmark := hx.fixed .launched rfl
    rw [hp] at hx
    rw [hx.eq_running, marks_launched] at hmark
    exact List.count_pos_iff.1 (by simp [hmark])
  cases hs.run c.run with
  | idle h => rw [h.progress] at hp; cases hp
  | empty h => rw [h.progress] at hp; cases hp
  | ordered h => exact hfound (h.shown c.node)
  | scheduled h => exact hfound (h.shown c.node)

/-- Operations in flight in one run do not conflict. -/
theorem InFlight.not_conflicts_of_run (h : s.InFlight c op) (h' : s.InFlight c' op') (hs : s.Sound)
    (hrun : c.run = c'.run) (hne : c ≠ c') : op.footprint.conflicts op'.footprint = false := by
  obtain ⟨⟨y, hy⟩, hop⟩ := h
  obtain ⟨⟨y', hy'⟩, hop'⟩ := h'
  obtain ⟨r, i⟩ := c
  obtain ⟨r', j⟩ := c'
  obtain rfl : r = r' := hrun
  have hij : i ≠ j := fun h => hne (h ▸ rfl)
  obtain ⟨x, hx, hi⟩ := Option.bind_eq_some_iff.1 hop
  obtain ⟨x', hx', hj⟩ := Option.bind_eq_some_iff.1 hop'
  obtain rfl := Option.some.inj (hx.symm.trans hx')
  have hr : (r, x.region) ∈ s.begun := mem_begun_iff.2 (by simp [((hs.run r).alive hx).regions])
  refine Bool.eq_false_iff.2 fun hc => ?_
  have hgraph : x.region.graph.conflicts i j :=
    Graph.conflicts_build_iff.2
      ⟨_, _, by simp [Region.footprints, hi], by simp [Region.footprints, hj], hc⟩
  rcases Nat.lt_or_gt_of_ne hij with hlt | hlt
  · have := ((hs.run r).ended_of_launched hr hlt hgraph (hs.launched_of_call hy')).2
    rw [hy] at this
    cases this
  · rw [Region.graph, Graph.conflicts_build_comm] at hgraph
    have := ((hs.run r).ended_of_launched hr hlt hgraph (hs.launched_of_call hy)).2
    rw [hy'] at this
    cases this

/-! ### Nested runs -/

omit [Leaf α] in
theorem Belongs.after {item : Item α ι} {w : World α σ ι} (h : s.Belongs c op) :
    (s.after i item w).Belongs c op := by
  obtain ⟨region, hmem, hop⟩ := h
  exact ⟨region, List.mem_append_left _ hmem, hop⟩

def HasRegion (s : Crew α σ ι) (r : RunKey) (region : Program α) : Prop :=
  (r, region) ∈ s.begun ∨ ∃ items ∈ s.threads, .start r region ∈ items

omit [Leaf α] in
theorem HasRegion.of_after {item : Item α ι} {rest items : List (Item α ι)}
    {tasks : List (Task ι)} {w : World α σ ι} {run : RunKey → Option (Run α)}
    {call : CallKey → Option Call} (hi : s.threads[i]? = some (item :: rest))
    (hb : (s.seenBy rest).Became w items tasks run call)
    (h : (s.after i item w).HasRegion r region) : s.HasRegion r region ∨ .start r region ∈ items := by
  rcases h with hmem | ⟨agenda, hagenda, hmem⟩
  · rcases List.mem_append.1 hmem with hmem | hmem
    · exact .inl (.inl hmem)
    · refine .inl (.inr ⟨_, mem_threads hi, ?_⟩)
      cases item <;> simp_all [Item.begins]
  · rcases List.mem_or_eq_of_mem_set hagenda with hold | rfl
    · exact .inl (.inr ⟨_, hold, hmem⟩)
    · rw [hb.agenda] at hmem
      rcases List.mem_append.1 hmem with hmem | hmem
      · exact .inr hmem
      · exact .inl (.inr ⟨_, mem_threads hi, List.mem_cons_of_mem _ hmem⟩)

/-- A nested run runs one of the regions of the operation around it. -/
theorem Reachable.mem_nested (h : Reachable b s) {n : Nat} (hr : s.HasRegion (c.nested n) region) :
    ∃ op, s.Belongs c op ∧ region ∈ op.nested := by
  induction h generalizing c n region with
  | fresh => rcases hr with hr | ⟨items, hi, -⟩ <;> contradiction
  | @move s t ch hreach hm ih =>
    have hs := hreach.sound
    rcases hm.spawned with ⟨i, item, rest, w, hi, hw, rfl⟩ | ⟨tasks, agenda, events, hsp, -, ha, -⟩
    · obtain ⟨items, tasks, run, call, hb, hc⟩ := World.step_cases rfl hw fun r region hr =>
        hs.known r (hasBegun_of_head (hr ▸ hi))
      rcases hr.of_after hi hb with hold | hnew
      · obtain ⟨op, hop, hmem⟩ := ih hold
        exact ⟨op, hop.after, hmem⟩
      · obtain ⟨c', n', op, hcn, hop, hmem⟩ := hc.start_mem hnew
        obtain ⟨rfl, rfl⟩ := CallKey.nested_inj.1 hcn
        exact ⟨op, (hs.belongs hop).after, hmem⟩
    · have hold : s.HasRegion (c.nested n) region := by
        rcases hr with hmem | ⟨items, hitems, hmem⟩
        · exact .inl (hsp.begun ▸ hmem)
        · rw [hsp.threads, List.mem_append, List.mem_singleton] at hitems
          rcases hitems with hitems | rfl
          · exact .inr ⟨_, hitems, hmem⟩
          · cases (ha _ hmem).2 _ _ rfl
      obtain ⟨op, hop, hmem⟩ := ih hold
      exact ⟨op, by simpa only [Belongs, hsp.begun] using hop, hmem⟩

/-- The operation around one in flight is in flight too, waits for the run of that one, and declares
all that that one does. -/
theorem InFlight.caller (hc : s.InFlight c op) (h : ReachableWhile Faithful b s)
    (hd : c.run.caller? = some d) : ∃ op' n, s.InFlight d op' ∧ c.run = d.nested n ∧
      s.Pending (d.nested n) ∧ op.footprint.Within op'.footprint := by
  have hs := h.reachable.sound
  obtain ⟨⟨y, hy⟩, hop⟩ := hc
  obtain ⟨n, hn⟩ := RunKey.eq_nested hd
  have hpending : s.Pending (d.nested n) := hn ▸ (hs.operation_of_call hy).1
  obtain ⟨x, hx⟩ := h.shows d
  have hnested := (hx.nested n).1 hpending
  obtain ⟨p, l, hy', -⟩ := hx.fits.exists_of_ne_quiet fun hq => by
    simp [hq, Stage.nested?] at hnested
  obtain ⟨-, op', hop'⟩ := hs.operation_of_call hy'
  obtain ⟨region, hmem, hnode⟩ := hs.belongs hop
  obtain ⟨op'', hbelongs, hregion⟩ := h.reachable.mem_nested (.inl (hn ▸ hmem))
  obtain rfl := (hs.belongs hop').unique hs hbelongs
  exact ⟨_, n, ⟨⟨_, hy'⟩, hop'⟩, hn, hpending,
    Operation.within_of_mem_ops hregion (List.mem_of_getElem? hnode)⟩

/-- Operations in flight do not conflict, unless one of them goes on inside the other. -/
theorem InFlight.not_conflicts (hc : s.InFlight c op) (hc' : s.InFlight c' op')
    (h : ReachableWhile Faithful b s) (hne : c ≠ c') (hhost : c.run.host = c'.run.host)
    (hexecution : c.run.execution = c'.run.execution) (hout : ¬ c.Encloses c')
    (hout' : ¬ c'.Encloses c) : op.footprint.conflicts op'.footprint = false := by
  -- the deeper of the two gives way to the operation around it until both are in one run
  induction hk : c.run.scope.length + c'.run.scope.length using Nat.strong_induction_on
    generalizing c c' op op' with
  | _ k ih =>
    wlog hle : c.run.scope.length ≤ c'.run.scope.length generalizing c c' op op'
    · rw [Footprint.conflicts_comm]
      exact this hc' hc hne.symm hhost.symm hexecution.symm hout' hout (by omega) (by omega)
    by_cases hrun : c.run = c'.run
    · exact hc.not_conflicts_of_run hc' h.reachable.sound hrun hne
    cases hd' : c'.run.caller? with
    | none =>
      -- both are of the outermost run
      have hnil' := RunKey.caller?_eq_none.1 hd'
      have hnil : c.run.scope = [] := by simpa [hnil'] using hle
      refine absurd ?_ hrun
      obtain ⟨⟨host, execution, scope⟩, i⟩ := c
      obtain ⟨⟨host', execution', scope'⟩, i'⟩ := c'
      simp_all
    | some d' =>
      have hlen' := CallKey.length_scope_of_caller? hd'
      obtain ⟨op₂, n', hd₂, hrun', hpending', hwithin'⟩ := hc'.caller h hd'
      rcases Nat.lt_or_eq_of_le hle with hlt | heq
      · refine (Footprint.Within.refl _).conflicts_eq_false hwithin'
          (ih _ (by omega) hc hd₂ (fun hcd => hout (.single (hcd ▸ hd'))) ?_ ?_
            (fun he => hout (he.tail hd')) (fun he => ?_) rfl)
        · rw [hhost, hrun']; rfl
        · rw [hexecution, hrun']; rfl
        · have := he.length_lt
          omega
      · cases hd : c.run.caller? with
        | none => simp [RunKey.caller?_eq_none.1 hd] at heq; omega
        | some d =>
          have hlen := CallKey.length_scope_of_caller? hd
          obtain ⟨op₁, n, hd₁, hrun₁, hpending, hwithin⟩ := hc.caller h hd
          have hdd : d ≠ d' := fun hdd => by
            subst hdd
            obtain ⟨x, hx⟩ := h.shows d
            obtain rfl := Option.some.inj (((hx.nested n).1 hpending).symm.trans
              ((hx.nested n').1 hpending'))
            exact hrun (hrun₁.trans hrun'.symm)
          rw [hrun₁, hrun'] at hhost hexecution
          refine hwithin.conflicts_eq_false hwithin' (ih _ (by omega) hd₁ hd₂ hdd hhost hexecution
            (fun he => ?_) (fun he => ?_) rfl)
          · have := he.length_lt
            omega
          · have := he.length_lt
            omega

end Crew

end OpFlow.Machine
