import OpFlow.Proofs.Machine.Attribution
import OpFlow.Proofs.Order.Accord

/-!
An execution accords with program order after an item if it did so before. A run that has been
resolved, of which no task was lost, has come to what its region does in program order. What is left
is little: a nested run that begins has its site, an operation that ends has done what it does in
program order, and the slots that it writes are those of which it is the last writer so far.
-/
namespace OpFlow

open Machine

variable {α : Type} [Leaf α]

/-! ### Runs that have been resolved -/

namespace Machine

theorem ComesTo.ended_ok {region : Program α} {o : Outcome} {st : Nat → NodeState} {j : Nat}
    (h : ComesTo region st o) (hj : j < region.ops.length)
    (hgood : ∀ i ≤ j, ∀ e, st i ≠ .ended (.error e)) : st j = .ended (.ok ()) := by
  obtain ⟨x, hx⟩ := (h.ended_iff j).2 ⟨hj, fun i hi e =>
    hgood i (Graph.lt_of_reaches_build hi).le e⟩
  cases x with
  | ok => exact hx
  | error e => exact absurd hx (hgood j le_rfl e)

namespace Crew

section Concluded

variable {σ ι : Type} {b : Backend α σ ι} {s : Crew α σ ι} {r : RunKey} {region : Program α}
  {o : Outcome}

/-- The operations of a run have ended well up to the first that has failed, if one has. -/
inductive RanTo (s : Crew α σ ι) (r : RunKey) (region : Program α) : Outcome → Prop
  | well (h : ∀ j < region.ops.length, .ended ⟨r, j⟩ (.ok ()) ∈ s.log) : RanTo s r region (.ok ())
  | badly {i : Nat} {op : Operation α} {e : Error} (hop : region.ops[i]? = some op)
      (hbefore : ∀ j < i, .ended ⟨r, j⟩ (.ok ()) ∈ s.log)
      (hfailed : .ended ⟨r, i⟩ (.error e) ∈ s.log) :
    RanTo s r region (.error (e.attributedTo op.info))

theorem Reachable.ranTo (h : Reachable b s) (hkept : ∀ j, .dropped ⟨r, j⟩ ∉ s.log)
    (hr : (r, region) ∈ s.begun) (ho : .resolved r o ∈ s.log) : s.RanTo r region o := by
  have hs := h.sound
  have hunique : ∀ {region'}, (s.view r).regions = [region'] → region' = region := fun hregions =>
    hs.region_unique hr (mem_begun_iff.2 (by simp [hregions]))
  cases hs.run r with
  | idle hv =>
    rw [mem_begun_iff, hv.regions] at hr
    cases hr
  | empty hv =>
    obtain rfl := hunique hv.regions
    cases o with
    | ok => exact .well fun j hj => by simp [hv.empty] at hj
    | error e =>
      have hnone : (s.view r).count (.resolved (.error e)) = 0 :=
        hv.count _ (by simp) (by simp) (by simp)
      rw [count_resolved, List.count_eq_zero] at hnone
      exact absurd ho hnone
  | @ordered region' _ _ hv =>
    obtain rfl := hunique hv.regions
    have hseq : s.Sequences r region' := ⟨hr, hv.ordered⟩
    cases hseq.concluded h ho with
    | well hall => exact .well hall
    | @badly i e hi hbefore hfailed =>
      have hinfo : infoAt region' i = (region'.ops[i]).info := by simp [infoAt, hi]
      rw [hinfo]
      exact .badly (by simp [hi]) hbefore hfailed
  | scheduled hv =>
    obtain rfl := hunique hv.regions
    have hschedules : s.Schedules r _ := ⟨hr, hv.concurrent, hv.unordered⟩
    obtain ⟨st, t, holders, hv, hends⟩ := h.exists_comesTo hschedules hkept ho
    have hended := fun j o => ended_mem_iff hv j o
    cases o with
    | ok =>
      have hgood : ∀ i e, st i ≠ .ended (.error e) := fun i => by
        induction i using Nat.strong_induction_on with
        | _ i ih =>
          intro e hi
          cases hends.first i e hi ih
      exact .well fun j hj => (hended j _).2 (hends.ended_ok hj fun i _ => hgood i)
    | error e =>
      obtain ⟨region', i, e', op, hr', hop, hfirst, rfl⟩ := h.exists_firstFailure hkept ho
      obtain rfl := hs.region_unique hr hr'
      refine .badly hop (fun j hj => (hended j _).2 (hends.ended_ok ?_ fun l hl e hfailed => ?_))
        hfirst.failed
      · exact hj.trans (List.getElem?_eq_some_iff.1 hop).1
      · exact hfirst.first l (by omega) ⟨e, (hended l _).2 hfailed⟩

end Concluded

variable {s : Crew α Bench Empty} {d : Bench} {m : Meaning α} {x y : Site α} {k : Nat} {r : RunKey}
  {o : Outcome} {f : Footprint}

theorem Grounded.outcome_of_ranTo (h : s.Grounded m x k d) (hy : m.Inside x r.scope y)
    (hto : s.RanTo r y.region o) : (m.region y.region y.arena).2 = o := by
  have hended : ∀ {j op o}, .ended ⟨r, j⟩ o ∈ s.log → y.region.ops[j]? = some op →
      (m.operation op (m.before y j)).2 = o := fun hlog hop =>
    h.ended _ _ _ _ hlog ⟨y, hy, hop, rfl⟩
  rw [m.region_eq]
  cases hto with
  | well hall =>
    exact m.sequence_ok fun j op hop => hended (hall j (List.getElem?_eq_some_iff.1 hop).1) hop
  | badly hop hbefore hfailed =>
    exact m.sequence_error hop (fun j hj op hop => hended (hbefore j hj) hop) (hended hfailed hop)

theorem Grounded.slot_of_ranTo (h : s.Grounded m x k d) (hr : r = ⟨k, 0, []⟩ ∨ s.Pending r)
    (hy : m.Inside x r.scope y) (hto : s.RanTo r y.region (.ok ())) {i : Nat} (hi : m.Reserves x r i) :
    d.arena.slots[i]? = (m.region y.region y.arena).1.slots[i]? := by
  cases hto with
  | well hall =>
    rw [← Meaning.before_of_length_le le_rfl]
    refine h.slots r y i _ hr hy hi ⟨fun l hl op hop hw => hall l hl, fun l hl op hop => ?_⟩
    rw [List.getElem?_eq_none hl] at hop
    cases hop

theorem Grounded.size_region (h : s.Grounded m x k d) (hy : m.Inside x r.scope y) :
    d.arena.size = (m.region y.region y.arena).1.size := by
  rw [h.size, ← hy.size]
  exact ((m.confines_region y.region).size _).symm

theorem Grounded.ran (h : s.Grounded m x k d) (hr : r = ⟨k, 0, []⟩ ∨ s.Pending r)
    (hy : m.Inside x r.scope y) (hto : s.RanTo r y.region o)
    (hf : ∀ i, .slot i ∈ f.places → m.Reserves x r i) : m.Ran f y o d.arena where
  outcome := h.outcome_of_ranTo hy hto
  arena ho := ⟨h.size_region hy, fun i hi => h.slot_of_ranTo hr hy (ho ▸ hto) (hf i hi)⟩

end Crew

end Machine

/-! ### One item -/

namespace Machine

section CallMove

variable {b : Backend α Bench Empty} {w : World α Bench Empty} {item : Item α Empty}
  {items : List (Item α Empty)} {call : CallKey → Option Call} {c : CallKey} {y y' : Call}

omit [Leaf α] in
/-- A call comes into flight as it is made. -/
theorem CallMove.of_new (h : CallMove b w item items call) (hy : w.call? c = none)
    (hy' : call c = some y') : item = .call c ∧ ∃ op, w.operation? c = some op := by
  have hsame : w.call? c = some y' → item = .call c ∧ ∃ op, w.operation? c = some op :=
    fun hy' => by cases hy.symm.trans hy'
  have hupdate : ∀ {c' : CallKey} {z : Call} {z' : Option Call}, w.call? c' = some z →
      Function.update w.call? c' z' c = some y' →
        item = .call c ∧ ∃ op, w.operation? c = some op := fun {c' z z'} hz hy' => by
    have hc : c ≠ c' := by
      rintro rfl
      cases hy.symm.trans hz
    rw [Function.update_of_ne hc] at hy'
    exact hsame hy'
  cases h with
  | spares | uncalled | unreturned | void | turnless | loopless | passed | late => exact hsame hy'
  | @called c' op opening l hop hopens =>
    by_cases hc : c = c'
    · subst hc
      exact ⟨rfl, op, hop⟩
    · rw [Function.update_of_ne hc] at hy'
      exact hsame hy'
  | ended hitem =>
    rcases hitem with ⟨-, hc⟩ | ⟨-, hc⟩
    · exact hupdate hc hy'
    · exact hupdate hc hy'
  | awaited hc | settled _ hc | turns _ hc | advances hc | waits hc | noted _ hc | goesOn _ hc =>
    exact hupdate hc hy'

omit [Leaf α] in
/-- A call in flight stays so until it ends. -/
theorem CallMove.stays (h : CallMove b w item items call) (hy : w.call? c = some y) :
    (∃ y', call c = some y') ∨ ∃ o, item = .returned c ∧ y.progress = .settled o ∨
      item.Settles c o ∧ y.progress = .awaited := by
  have hupdate : ∀ {c' : CallKey} {z' : Call}, ∃ y', Function.update w.call? c' (some z') c = some y' :=
    fun {c' z'} => by
      by_cases hc : c = c'
      · subst hc
        exact ⟨z', Function.update_self ..⟩
      · exact ⟨y, (Function.update_of_ne hc ..).trans hy⟩
  cases h with
  | spares | uncalled | unreturned | void | turnless | loopless | passed | late => exact .inl ⟨y, hy⟩
  | called | awaited | settled | turns | advances | waits | noted | goesOn => exact .inl hupdate
  | @ended _ _ c' o l hitem =>
    by_cases hc : c = c'
    · subst hc
      rcases hitem with ⟨hitem, hc⟩ | ⟨hitem, hc⟩ <;> cases hy.symm.trans hc
      · exact .inr ⟨o, .inl ⟨hitem, rfl⟩⟩
      · exact .inr ⟨o, .inr ⟨hitem, rfl⟩⟩
    · exact .inl ⟨y, (Function.update_of_ne hc ..).trans hy⟩

end CallMove

omit [Leaf α] in
theorem World.noted_unique {σ ι : Type} {w : World α σ ι} {item : Item α ι} {e e' : Event}
    (he : e ∈ w.noted item) (he' : e' ∈ w.noted item) : e' = e := by
  have hle := w.length_noted_le item
  match hnoted : w.noted item with
  | [] => simp [hnoted] at he
  | [e₀] => simp_all
  | e₀ :: e₁ :: es => simp [hnoted] at hle

namespace Crew

variable {m : Meaning α} {P : Conduct α} {x y : Site α} {s : Crew α Bench Empty} {k i j n : Nat}
  {item : Item α Empty} {rest items : List (Item α Empty)} {tasks : List (Task Empty)}
  {w : World α Bench Empty} {run : RunKey → Option (Run α)} {call : CallKey → Option Call}
  {r : RunKey} {c : CallKey} {op : Operation α} {a : Arena} {o : Outcome}

/-- Thread `n` does its first item, and what comes of it. -/
structure Does (P : Conduct α) (s : Crew α Bench Empty) (n : Nat) (item : Item α Empty)
    (rest items : List (Item α Empty)) (tasks : List (Task Empty)) (w : World α Bench Empty)
    (run : RunKey → Option (Run α)) (call : CallKey → Option Call) : Prop where
  sound : s.Sound
  after : (s.after n item w).Sound
  head : s.threads[n]? = some (item :: rest)
  step : (s.seenBy (item :: rest)).step? P.backend = some w
  became : (s.seenBy rest).Became w items tasks run call
  move : CallMove P.backend (s.seenBy rest) item items call

theorem Sound.exists_does (hs : s.Sound) (hn : s.threads[n]? = some (item :: rest))
    (hw : (s.seenBy (item :: rest)).step? P.backend = some w) :
    ∃ items tasks run call, s.Does P n item rest items tasks w run call := by
  obtain ⟨items, tasks, run, call, hb, hm⟩ := World.step_cases rfl hw fun r region hr =>
    hs.known r (hasBegun_of_head (hr ▸ hn))
  exact ⟨items, tasks, run, call, hs, hs.act _ hn hw, hn, hw, hb, hm⟩

namespace Does

variable (h : s.Does P n item rest items tasks w run call)

include h

/-- A nested run that is to begin has not begun before. -/
theorem not_hasBegun {number : Nat} {region : Program α}
    (hmem : .start (c.nested number) region ∈ items) : ¬ s.HasBegun (c.nested number) := by
  have hplain : (∀ x ∈ items, Item.IsPlain x) → False := fun hall => (hall _ hmem).start _ _ rfl
  have hm := h.move
  cases hm with
  | spares _ hitems | ended _ hitems => exact (hplain hitems).elim
  | @called c' op opening l hop hopens =>
    have hnew := (h.sound.call?_of_call h.head).2
    cases hopens with
    | body | branch =>
      obtain ⟨hkey, -⟩ : c.nested number = c'.nested 0 ∧ region = _ := by simpa using hmem
      rw [hkey]
      exact hnew 0
    | _ => simp at hmem
  | @turns c' p l l' items info predicate condition body trips hop hc hturns =>
    have hnew : ¬ s.HasBegun (c'.nested l.started) := fun hbegun =>
      Nat.lt_irrefl _ ((h.sound.fresh c' _ hbegun).2 p l hc)
    cases hturns with
    | finished => simp at hmem
    | body | condition =>
      obtain ⟨hkey, -⟩ : c.nested number = c'.nested l.started ∧ region = _ := by simpa using hmem
      rw [hkey]
      exact hnew
  | advances _ _ hadv | goesOn _ _ _ hadv => cases hadv <;> simp at hmem
  | passed => simp at hmem
  | _ => cases hmem

theorem pending (hr : (s.after n item w).Pending r) :
    s.Pending r ∨ ∃ (c : CallKey) (number : Nat) (region : Program α), r = c.nested number ∧
      .start r region ∈ items := by
  rcases hasBegun_after h.head h.became hr.1 with hold | ⟨region, hmem⟩
  · exact .inl ⟨hold, fun o ho => hr.2 o (List.mem_append_left _ ho)⟩
  · obtain ⟨c, number, op, rfl, -⟩ := h.move.start_mem hmem
    exact .inr ⟨c, number, region, rfl, hmem⟩

theorem operation (hop : s.world.operation? c = some op) {y' : Call} (hy' : call c = some y') :
    (s.after n item w).world.operation? c = some op := by
  have hcall : (s.after n item w).world.call? c = some y' := (congrFun h.became.call c).trans hy'
  obtain ⟨-, op', hop'⟩ := h.after.operation_of_call hcall
  have hbelongs : (s.after n item w).Belongs c op := (h.sound.belongs hop).after
  rw [hop', (h.after.belongs hop').unique h.after hbelongs]

end Does

/-! ### Runs and slots -/

theorem Accords.starts_inside (h : s.Accords m x k s.world.device)
    (hdoes : s.Does P n item rest items tasks w run call) {number : Nat} {region : Program α}
    (hmem : .start (c.nested number) region ∈ items) : c.run.host = k ∧ c.run.execution = 0 ∧
      ∃ z, m.Inside x (c.nested number).scope z ∧ z.region = region ∧
        ∀ i, m.Reserves x (c.nested number) i →
          s.world.device.arena.slots[i]? = z.arena.slots[i]? := by
  obtain ⟨op, a, z, hop, hcalls, hnests, hregion, hagree⟩ :=
    h.starts hdoes.sound hdoes.after hdoes.head hdoes.move hmem
  obtain ⟨-, -, -, -, -, hhost, hexecution⟩ := h.site hdoes.sound hop
  exact ⟨hhost, hexecution, z, hcalls.inside hnests, hregion, fun i hi =>
    hagree.slot i (hi c number op a rfl hcalls)⟩

theorem Accords.sited_after (h : s.Accords m x k s.world.device)
    (hdoes : s.Does P n item rest items tasks w run call) {region : Program α}
    (hr : (s.after n item w).HasRegion r region) : r.host = k ∧ r.execution = 0 ∧
      ∃ y, m.Inside x r.scope y ∧ y.region = region := by
  rcases hr.of_after hdoes.head hdoes.became with hold | hmem
  · exact h.sited r region hold
  · obtain ⟨c, number, op, rfl, -⟩ := hdoes.move.start_mem hmem
    obtain ⟨hhost, hexecution, z, hz, hregion, -⟩ := h.starts_inside hdoes hmem
    exact ⟨hhost, hexecution, z, hz, hregion⟩

theorem Accords.ended_after (h : s.Accords m x k s.world.device)
    (hdoes : s.Does P n item rest items tasks w run call)
    (ho : .ended c o ∈ (s.after n item w).log) (hcalls : m.Calls x c op a) :
    (m.operation op a).2 = o := by
  rcases List.mem_append.1 ho with ho | ho
  · exact h.ended c o op a ho hcalls
  · exact (h.done hdoes.sound hdoes.head ho hcalls).2.outcome

theorem Does.not_ended_of_start (hdoes : s.Does P n item rest items tasks w run call) {number l : Nat}
    {region : Program α} (hmem : .start (c.nested number) region ∈ items) :
    .ended ⟨c.nested number, l⟩ o ∉ (s.after n item w).log := fun ho => by
  have hs := hdoes.sound
  refine hdoes.not_hasBegun hmem ?_
  rcases List.mem_append.1 ho with ho | ho
  · exact hs.hasBegun_of_sign ho rfl (by simp)
  · obtain ⟨l', ⟨-, hc⟩ | ⟨-, hc⟩⟩ := World.mem_noted_ended ho
    · exact (hs.operation_of_call hc).1.1
    · exact (hs.operation_of_call hc).1.1

/-- A slot of which an operation has just become the last writer holds what that operation leaves
there. -/
theorem Accords.slot_of_ended (h : s.Accords m x k s.world.device)
    (hdoes : s.Does P n item rest items tasks w run call) (hy : m.Inside x r.scope y) {l : Nat}
    (hop : y.region.ops[l]? = some op) (hw : op.footprint.writes (.slot i)) (hl : l < j)
    (hended : .ended ⟨r, l⟩ (.ok ()) ∈ s.world.noted item)
    (hcurrent : (s.after n item w).Current r y.region i j) :
    s.world.device.arena.slots[i]? = (m.before y j).slots[i]? := by
  have hs := hdoes.sound
  have hcalls : m.Calls x ⟨r, l⟩ op (m.before y l) := ⟨y, hy, hop, rfl⟩
  obtain ⟨⟨z, hz⟩, hdone⟩ := h.done hs hdoes.head hended hcalls
  obtain ⟨-, op', hop'⟩ := hs.operation_of_call hz
  obtain ⟨y', hy', -, hbegun, -⟩ := h.site hs hop'
  obtain rfl := hy.unique hy'
  rw [(hdone.arena rfl).slot i (Footprint.mem_places_of_writes hw), ← Meaning.before_succ hop]
  -- a writer after it would have waited for its end
  refine (Meaning.before_slot hl fun l' op' hl' hlj hop' => ?_).symm
  by_contra hw'
  have hended' := hcurrent.before l' hlj op' hop' (by simpa using hw')
  have hlog := (List.mem_append.1 hended').resolve_right fun hnoted => by
    cases World.noted_unique hended hnoted
    exact Nat.lt_irrefl _ hl'
  have hnone := ((hs.run r).ended_of_launched hbegun hl' (conflicts_of_writes hop' hop
    (Footprint.mem_places_of_writes (by simpa using hw')) hw) (hs.launched_of_ended hlog)).2
  cases hz.symm.trans hnone

theorem Accords.slots_after (h : s.Accords m x k s.world.device)
    (hdoes : s.Does P n item rest items tasks w run call)
    (hr : r = ⟨k, 0, []⟩ ∨ (s.after n item w).Pending r) (hy : m.Inside x r.scope y)
    (hi : m.Reserves x r i) (hcurrent : (s.after n item w).Current r y.region i j) :
    s.world.device.arena.slots[i]? = (m.before y j).slots[i]? := by
  have hold : r = ⟨k, 0, []⟩ ∨ s.Pending r →
      s.world.device.arena.slots[i]? = (m.before y j).slots[i]? := fun hr => by
    by_cases hbefore : ∀ l < j, ∀ op, y.region.ops[l]? = some op → op.footprint.writes (.slot i) →
        .ended ⟨r, l⟩ (.ok ()) ∈ s.log
    · exact h.slots r y i j hr hy hi ⟨hbefore, fun l hl op hop hw hlog =>
        hcurrent.after l hl op hop hw (List.mem_append_left _ hlog)⟩
    · push Not at hbefore
      obtain ⟨l, hl, op, hop, hw, hnot⟩ := hbefore
      exact h.slot_of_ended hdoes hy hop hw hl
        ((List.mem_append.1 (hcurrent.before l hl op hop hw)).resolve_left hnot) hcurrent
  rcases hr with hr | hr
  · exact hold (.inl hr)
  rcases hdoes.pending hr with hr | ⟨c, number, region, rfl, hmem⟩
  · exact hold (.inr hr)
  · obtain ⟨-, -, z, hz, -, hslot⟩ := h.starts_inside hdoes hmem
    obtain rfl := hy.unique hz
    rw [hslot i hi, ← Meaning.before_zero]
    refine (Meaning.before_slot (Nat.zero_le j) fun l op _ hl hop => ?_).symm
    by_contra hw
    exact hdoes.not_ended_of_start hmem (hcurrent.before l hl op hop (by simpa using hw))

/-! ### Calls -/

theorem Accords.not_settle_leaf (h : s.Accords m x k s.world.device) (hs : s.Sound)
    (hn : s.threads[n]? = some (item :: rest)) (hleaf : s.IsLeaf c) (o : Outcome) :
    item ≠ .settle c o := by
  rintro rfl
  obtain ⟨info, act, hbelongs⟩ := hleaf
  obtain ⟨op, hop, hnot⟩ := h.settles _ (mem_threads hn) c o List.mem_cons_self
  exact hnot info act (hbelongs.unique hs hop)

/-- A call for which an event is to resolve stays in flight. -/
theorem Accords.waits_after (h : s.Accords m x k s.world.device)
    (hdoes : s.Does P n item rest items tasks w run call) (hc : s.world.device.waiting c ≠ none) :
    ∃ info act, (s.after n item w).InFlight c (.leaf info act) := by
  have hs := hdoes.sound
  obtain ⟨info, act, ⟨z, hz⟩, hop⟩ := h.waits c hc
  obtain ⟨p, hp⟩ := Option.ne_none_iff_exists'.1 hc
  obtain ⟨y, hy, hnode, -⟩ := h.site hs hop
  have hcalls : m.Calls x c _ (m.before y c.node) := ⟨y, hy, hnode, rfl⟩
  cases h.calls c _ _ z hz hcalls with
  | nests hnot => exact absurd rfl (hnot info act)
  | leaf _ hawaits =>
    obtain ⟨-, hunsettled, hnone⟩ := hawaits.waiting p hp
    rcases hdoes.move.stays hz with ⟨y', hy'⟩ | ⟨o, ⟨-, ho⟩ | ⟨rfl | rfl, -⟩⟩
    · exact ⟨info, act, ⟨⟨y', (congrFun hdoes.became.call c).trans hy'⟩, hdoes.operation hop hy'⟩⟩
    · exact absurd ho (hunsettled o)
    · exact absurd rfl (h.not_settle_leaf hs hdoes.head ((hs.isLeaf_iff hop).2 ⟨_, _, rfl⟩) o)
    · exact absurd (asked_of_head hdoes.head) (hnone o)

theorem Accords.asked_after (h : s.Accords m x k s.world.device)
    (hdoes : s.Does P n item rest items tasks w run call) (hc : (s.after n item w).Asked c o) :
    (s.after n item w).IsLeaf c ∧ .launched c ∈ (s.after n item w).log := by
  rcases hc.of_after hdoes.head hdoes.step with hold | ⟨info, act, rfl, hop, -⟩
  · obtain ⟨hleaf, hlog⟩ := h.asked c o hold
    exact ⟨hleaf.after, List.mem_append_left _ hlog⟩
  · exact ⟨⟨info, act, (hdoes.sound.belongs hop).after⟩,
      List.mem_append_right _ (mem_noted_launched.2 ⟨rfl, by rw [hop]; rfl⟩)⟩

/-- What a thread is to settle then runs nested regions. -/
theorem Does.not_isLeaf_of_settle (hdoes : s.Does P n item rest items tasks w run call)
    (hshows : ∀ c, ∃ z, s.Shows c z) (hmem : .settle c o ∈ items) :
    ∃ op, s.world.operation? c = some op ∧ ∀ info act, op ≠ .leaf info act := by
  have hs := hdoes.sound
  have hplain : (∀ x ∈ items, Item.IsPlain x) → False := fun hall => by
    cases (hall _ hmem).token
  -- what is at some other stage than the quiet one is no leaf
  have hbusy : ∀ {c' : CallKey} {y stage}, s.world.call? c' = some y → s.Shows c' stage →
      stage ≠ .quiet → ∃ op, s.world.operation? c' = some op ∧ ∀ info act, op ≠ .leaf info act :=
    fun hc hx hne => by
      obtain ⟨-, op, hop⟩ := hs.operation_of_call hc
      exact ⟨op, hop, fun info act hleaf => hne (hx.leaf ((hs.isLeaf_iff hop).2 ⟨_, _, hleaf⟩))⟩
  have hended : ∀ {c' : CallKey} {number o' y}, item = .settleRun (c'.nested number) o' →
      s.world.call? c' = some y →
      ∃ op, s.world.operation? c' = some op ∧ ∀ info act, op ≠ .leaf info act :=
    fun {c' _ _ _} hitem hc => by
      obtain ⟨stage, hx⟩ := hshows c'
      have hnested := hx.nested_of_settleRun hs (hitem ▸ hdoes.head)
      exact hbusy hc hx fun hq => by simp [hq, Stage.nested?] at hnested
  have hm := hdoes.move
  cases hm with
  | spares _ hitems | ended _ hitems => exact (hplain hitems).elim
  | @called c' op opening l hop hopens =>
    cases hopens with
    | leaf => simp at hmem
    | panicked hlaunch => cases hlaunch
    | unread =>
      obtain ⟨rfl, -⟩ : c = c' ∧ o = _ := by simpa using hmem
      exact ⟨_, hop, fun _ _ h => by cases h⟩
    | _ => simp at hmem
  | @turns c' p l l' items info predicate condition body trips hop hc hturns =>
    cases hturns with
    | finished =>
      obtain ⟨rfl, -⟩ : c = c' ∧ o = _ := by simpa using hmem
      exact ⟨_, hop, fun _ _ h => by cases h⟩
    | _ => simp at hmem
  | @advances c' p l l' o' items hc hl hadv =>
    obtain ⟨stage, hx⟩ := hshows c'
    have hpos := hx.pos_of_token hdoes.head rfl (by simp)
    have hkey : c = c' := by
      cases hadv <;> simp at hmem <;> exact hmem.1
    exact hkey ▸ hbusy hc hx fun hq => by simp [hq, Stage.weight] at hpos
  | @goesOn r o' c' p l l' items hr hc hl hadv =>
    obtain ⟨number, rfl⟩ := RunKey.eq_nested hr
    have hkey : c = c' := by
      cases hadv <;> simp at hmem <;> exact hmem.1
    exact hkey ▸ hended rfl hc
  | @passed r o' c' p hr hc =>
    obtain ⟨number, rfl⟩ := RunKey.eq_nested hr
    obtain ⟨rfl, -⟩ : c = c' ∧ o = _ := by simpa using hmem
    exact hended rfl hc
  | _ => cases hmem

theorem Accords.settles_after (h : s.Accords m x k s.world.device)
    (hdoes : s.Does P n item rest items tasks w run call) (hshows : ∀ c, ∃ z, s.Shows c z)
    {agenda : List (Item α Empty)} (hagenda : agenda ∈ (s.after n item w).threads)
    (hmem : .settle c o ∈ agenda) :
    ∃ op, (s.after n item w).Belongs c op ∧ ∀ info act, op ≠ .leaf info act := by
  have hold : ∀ {agenda}, agenda ∈ s.threads → .settle c o ∈ agenda →
      ∃ op, (s.after n item w).Belongs c op ∧ ∀ info act, op ≠ .leaf info act :=
    fun hagenda hmem => by
      obtain ⟨op, hop, hnot⟩ := h.settles _ hagenda c o hmem
      exact ⟨op, hop.after, hnot⟩
  rcases List.mem_or_eq_of_mem_set hagenda with hagenda | rfl
  · exact hold hagenda hmem
  · rw [hdoes.became.agenda] at hmem
    rcases List.mem_append.1 hmem with hmem | hmem
    · obtain ⟨op, hop, hnot⟩ := hdoes.not_isLeaf_of_settle hshows hmem
      exact ⟨op, (hdoes.sound.belongs hop).after, hnot⟩
    · exact hold (mem_threads hdoes.head) (List.mem_cons_of_mem _ hmem)

theorem Accords.grounded_after (h : s.Accords m x k s.world.device)
    (hdoes : s.Does P n item rest items tasks w run call) (hshows : ∀ c, ∃ z, s.Shows c z) :
    (s.after n item w).Grounded m x k s.world.device where
  sited _ _ := h.sited_after hdoes
  size := h.size
  ended _ _ _ _ := h.ended_after hdoes
  slots _ _ _ _ := h.slots_after hdoes
  waits _ := h.waits_after hdoes
  asked _ _ := h.asked_after hdoes
  settles _ hagenda _ _ := h.settles_after hdoes hshows hagenda

/-- A nested run that ends has come to what its region does. -/
theorem Accords.ran_of_settleRun (h : s.Accords m x k s.world.device)
    (hdoes : s.Does P n item rest items tasks w run call)
    (hreach : Reachable P.backend (s.after n item w))
    (hkept : ∀ c, .dropped c ∉ (s.after n item w).log) {number : Nat}
    (hitem : item = .settleRun (c.nested number) o) (hcalls : m.Calls x c op a)
    (hz : m.Nests op a number y) : m.Ran op.footprint y o s.world.device.arena := by
  subst hitem
  have hs := hdoes.sound
  have hpending : s.Pending (c.nested number) :=
    ⟨hs.hasBegun_of_settleRun hdoes.head, hs.not_resolved_of_settleRun hdoes.head⟩
  have hresolved : .resolved (c.nested number) o ∈ (s.after n (.settleRun (c.nested number) o) w).log :=
    mem_log_after.2 (.inr rfl)
  obtain ⟨region, hbegun⟩ := hdoes.after.exists_begun hresolved
  have hold : (c.nested number, region) ∈ s.begun := by
    simpa [Crew.after, Item.begins] using hbegun
  obtain ⟨-, -, y', hy', hregion⟩ := h.sited _ _ (.inl hold)
  obtain rfl := (hcalls.inside hz).unique hy'
  subst hregion
  refine h.ran (.inr hpending) hy' ?_ fun i hi c' n' op' a' hkey hcalls' => ?_
  · have hended : ∀ {j o'}, .ended ⟨c.nested number, j⟩ o' ∈
        (s.after n (.settleRun (c.nested number) o) w).log →
          .ended ⟨c.nested number, j⟩ o' ∈ s.log := fun ho =>
      (List.mem_append.1 ho).resolve_right fun hnoted => by simp [World.noted] at hnoted
    cases hreach.ranTo (fun j => hkept _) hbegun hresolved with
    | well hall => exact .well fun j hj => hended (hall j hj)
    | badly hop hbefore hfailed => exact .badly hop (fun j hj => hended (hbefore j hj)) (hended hfailed)
  · obtain ⟨rfl, -⟩ := CallKey.nested_inj.1 hkey
    obtain ⟨rfl, rfl⟩ := hcalls.unique hcalls'
    exact hi

/-- How a call in flight stands after an item, but for a leaf operation that the item launches. -/
theorem Accords.stood_after (h : s.Accords m x k s.world.device) (hf : s.Faithful)
    (hdoes : s.Does P n item rest items tasks w run call) (hshows : ∀ c, ∃ z, s.Shows c z)
    (hreach : Reachable P.backend (s.after n item w))
    (hkept : ∀ c, .dropped c ∉ (s.after n item w).log)
    (hchooses : ∀ c op a, m.Calls x c op a → op.Chooses)
    {y' : Call} (hy' : (s.after n item w).world.call? c = some y') (hcalls : m.Calls x c op a)
    (hnew : ∀ info act, item = .call c → op ≠ .leaf info act) :
    (s.after n item w).Stood m s.world.device c op a y' := by
  have hs := hdoes.sound
  replace hy' : call c = some y' := (congrFun hdoes.became.call c).symm.trans hy'
  have hoperation : ∀ {op'}, s.world.operation? c = some op' → op' = op := fun hop => by
    obtain ⟨y, hy, hnode, -⟩ := h.site hs hop
    exact (Meaning.Calls.unique hcalls ⟨y, hy, hnode, rfl⟩).1
  cases hy : s.world.call? c with
  | none =>
    obtain ⟨rfl, op', hop⟩ := hdoes.move.of_new hy hy'
    obtain rfl := hoperation hop
    obtain ⟨stage, hx⟩ := hshows c
    obtain ⟨stage', hx', hstands⟩ := hx.opened (m := m) hs hf hop (fun info act => hnew info act rfl)
      (hchooses _ _ _ hcalls) (h.found hs hdoes.after hdoes.head hop hcalls) hdoes.head hdoes.became
      hdoes.move
    exact .nests (fun info act => hnew info act rfl) hx' (hstands y' hy')
  | some y =>
    obtain ⟨-, op', hop⟩ := hs.operation_of_call hy
    obtain rfl := hoperation hop
    cases h.calls c _ _ y hy hcalls with
    | nests hnot hx hstands =>
      obtain ⟨stage', hx', hstands'⟩ := hx.stands hs hf hstands hy hop hdoes.head hdoes.became
        hdoes.move hdoes.after fun number o z hitem hz =>
          h.ran_of_settleRun hdoes hreach hkept hitem hcalls hz
      exact .nests hnot hx' (hstands' y' hy')
    | leaf hleaf hawaits =>
      exact .leaf hleaf (hawaits.after hs hdoes.after hdoes.head hdoes.step hdoes.became hdoes.move hy
        hy' (h.not_settle_leaf hs hdoes.head ((hs.isLeaf_iff hop).2 ⟨_, _, hleaf⟩)))

end Crew

end Machine

end OpFlow
