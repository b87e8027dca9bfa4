import OpFlow.Proofs.Order.Items

/-!
What a leaf operation in flight does to the arena keeps an execution in accord with program order.
No other call in flight declares a slot that it writes, but for those around it, which wait for a
nested run; and of the runs around it that slot is not current, for the operation there that it is
inside of has been launched and has not ended.
-/
namespace OpFlow

open Machine

variable {α : Type} [Leaf α]

namespace Machine.Crew

section Encloses

variable {σ ι : Type} {b : Backend α σ ι} {s : Crew α σ ι} {c d : CallKey} {op : Operation α}

theorem InFlight.of_encloses (hc : s.InFlight c op) (h : ReachableWhile Faithful b s)
    (hd : d.Encloses c) : ∃ op' n e, s.InFlight d op' ∧ op.footprint.Within op'.footprint ∧
      s.Pending (d.nested n) ∧ e.run = d.nested n ∧ (e = c ∨ e.Encloses c) := by
  induction hd using Relation.TransGen.head_induction_on with
  | single hd =>
    obtain ⟨op', n, hflight, hrun, hpending, hwithin⟩ := hc.caller h hd
    exact ⟨op', n, c, hflight, hwithin, hpending, hrun, .inl rfl⟩
  | @head d e hd he ih =>
    obtain ⟨op₁, n₁, e₁, hflight₁, hwithin₁, -⟩ := ih
    obtain ⟨op', n, hflight, hrun, hpending, hwithin⟩ := hflight₁.caller h hd
    exact ⟨op', n, e, hflight, hwithin₁.trans hwithin, hpending, hrun, .inr he⟩

theorem InFlight.not_encloses {info : OpInfo} {act : α} (hd : s.InFlight d (.leaf info act))
    (hc : s.InFlight c op) (h : ReachableWhile Faithful b s) : ¬ d.Encloses c := fun he => by
  obtain ⟨-, n, -, -, -, hpending, -⟩ := hc.of_encloses h he
  obtain ⟨x, hx⟩ := h.shows d
  have hnested := (hx.nested n).1 hpending
  rw [hx.leaf ((h.reachable.sound.isLeaf_iff hd.operation).2 ⟨_, _, rfl⟩)] at hnested
  cases hnested

theorem Sound.inFlight_of_pending (hs : s.Sound) {x : Stage} {n : Nat} (hx : s.Shows c x)
    (hn : s.Pending (c.nested n)) : ∃ op, s.InFlight c op := by
  have hnested := (hx.nested n).1 hn
  obtain ⟨p, l, hy, -⟩ := hx.fits.exists_of_ne_quiet fun hq => by simp [hq, Stage.nested?] at hnested
  obtain ⟨-, op, hop⟩ := hs.operation_of_call hy
  exact ⟨op, ⟨_, hy⟩, hop⟩

/-- A run that has begun, or is about to, has a region. -/
theorem Sound.exists_hasRegion (hs : s.Sound) {r : RunKey} (h : s.HasBegun r) :
    ∃ region, s.HasRegion r region := by
  have hregion : ∀ {region}, (s.view r).regions = [region] → ∃ region, s.HasRegion r region :=
    fun {region} h => ⟨region, .inl (mem_begun_iff.2 (by simp [h]))⟩
  cases hs.run r with
  | idle hv =>
    have hstart : (r, Sign.start) ∈ s.signs := by
      have hstarted : (s.view r).count .started = 0 := hv.count _ (by simp)
      unfold HasBegun at h
      rw [← List.count_pos_iff, ← count_view]
      omega
    simp only [signs, List.mem_append, List.mem_flatMap, List.mem_filterMap] at hstart
    rcases hstart with (⟨items, hitems, hsign⟩ | ⟨t, -, hsign⟩) | ⟨e, -, hsign⟩
    · obtain ⟨item, hitem, hsign⟩ := List.mem_filterMap.1 hsign
      obtain ⟨region, rfl⟩ := sign_start_iff.1 hsign
      exact ⟨region, .inr ⟨items, hitems, hitem⟩⟩
    · cases t <;> simp [Task.sign] at hsign
    · cases e <;> simp [Event.sign] at hsign
  | empty hv | ordered hv | scheduled hv => exact hregion hv.regions

/-- A call is one of the outermost run of its execution, or inside one. -/
theorem exists_outermost (c : CallKey) : ∃ e : CallKey, e.run = ⟨c.run.host, c.run.execution, []⟩ ∧
    (e = c ∨ e.Encloses c) := by
  induction hk : c.run.scope.length using Nat.strong_induction_on generalizing c with
  | _ k ih =>
    cases hd : c.run.caller? with
    | none =>
      refine ⟨c, ?_, .inl rfl⟩
      rw [← RunKey.caller?_eq_none.1 hd]
    | some d =>
      have hlen := CallKey.length_scope_of_caller? hd
      obtain ⟨n, hn⟩ := RunKey.eq_nested hd
      obtain ⟨e, he, hed⟩ := ih _ (by omega) d rfl
      refine ⟨e, by rw [he, hn]; rfl, .inr ?_⟩
      rcases hed with rfl | hed
      · exact .single hd
      · exact hed.tail hd

end Encloses

variable {s : Crew α Bench Empty} {m : Meaning α} {P : Conduct α} {x y : Site α} {d d' : Bench}
  {k i j : Nat} {r : RunKey} {c c' : CallKey} {op : Operation α} {a : Arena} {info : OpInfo} {act : α}
  {z : Call}

/-- A slot that an operation in flight writes is not current in a run that it is inside of. -/
theorem Current.not_writes {region : Program α} (h : s.Current r region i j)
    (hr : ReachableWhile Faithful P.backend s) (hregion : (r, region) ∈ s.begun)
    (hc : s.InFlight c op) {e : CallKey} (he : e.run = r) (hec : e = c ∨ e.Encloses c) :
    op.footprint.writes (.slot i) = false := by
  have hs := hr.reachable.sound
  have hexists : ∃ op', s.InFlight e op' ∧ op.footprint.Within op'.footprint := by
    rcases hec with rfl | hec
    · exact ⟨op, hc, .refl _⟩
    · obtain ⟨op', -, -, hflight, hwithin, -⟩ := hc.of_encloses hr hec
      exact ⟨op', hflight, hwithin⟩
  obtain ⟨op', ⟨⟨y, hy⟩, hop⟩, hwithin⟩ := hexists
  subst he
  obtain ⟨region', hmem, hnode⟩ := hs.belongs hop
  obtain rfl := hs.region_unique hregion hmem
  by_contra hw
  have hw' := hwithin.writes (by simpa using hw)
  by_cases hlt : e.node < j
  · have hended := h.before _ hlt op' hnode hw'
    cases hy.symm.trans (hs.call?_of_ended hended)
  · exact h.after _ (Nat.le_of_not_lt hlt) op' hnode hw' (hs.launched_of_call hy)

theorem InFlight.not_writes (hc : s.InFlight c op) {op' : Operation α} (hc' : s.InFlight c' op')
    (hr : ReachableWhile Faithful P.backend s) (hne : c ≠ c') (hhost : c.run.host = c'.run.host)
    (hexecution : c.run.execution = c'.run.execution) (hout : ¬ c.Encloses c')
    (hout' : ¬ c'.Encloses c) (hi : .slot i ∈ op'.footprint.places) :
    op.footprint.writes (.slot i) = false := by
  by_contra hw
  have hconflict := hc.not_conflicts hc' hr hne hhost hexecution hout hout'
  rw [Footprint.conflicts_iff.2 ⟨_, Footprint.mem_places_of_writes (by simpa using hw), hi,
    .inl (by simpa using hw)⟩] at hconflict
  cases hconflict

/-- A slot that is current in a run is written by no leaf operation in flight. -/
theorem Grounded.not_writes (h : s.Grounded m x k d) (hr : ReachableWhile Faithful P.backend s)
    (hc : s.InFlight c (.leaf info act)) (hgoes : r = ⟨k, 0, []⟩ ∨ s.Pending r)
    (hy : m.Inside x r.scope y) (hi : m.Reserves x r i) (hcurrent : s.Current r y.region i j) :
    (Operation.leaf info act).footprint.writes (.slot i) = false := by
  have hs := hr.reachable.sound
  obtain ⟨y₁, hy₁, hnode₁, hbegun₁, -, hhost₁, hexecution₁⟩ := h.site hs hc.operation
  have houtermost : r = ⟨k, 0, []⟩ → ∃ e : CallKey, e.run = r ∧ (e = c ∨ e.Encloses c) := fun hr => by
    obtain ⟨e, he, hec⟩ := exists_outermost c
    exact ⟨e, by rw [he, hhost₁, hexecution₁, hr], hec⟩
  by_cases hin : ∃ e : CallKey, e.run = r ∧ (e = c ∨ e.Encloses c)
  · obtain ⟨e, rfl, hec⟩ := hin
    refine hcurrent.not_writes hr ?_ hc rfl hec
    have hexists : ∃ op', s.InFlight e op' := by
      rcases hec with rfl | hec
      · exact ⟨_, hc⟩
      · obtain ⟨op', -, -, hflight, -⟩ := hc.of_encloses hr hec
        exact ⟨op', hflight⟩
    obtain ⟨op', hflight⟩ := hexists
    obtain ⟨y₂, hy₂, -, hbegun₂, -⟩ := h.site hs hflight.operation
    obtain rfl := hy.unique hy₂
    exact hbegun₂
  · -- the run is a nested one, and the call around it has nothing to do with the operation
    have hpending : s.Pending r := hgoes.resolve_left fun hr => hin (houtermost hr)
    have hcaller : ∃ c₀, r.caller? = some c₀ := by
      refine Option.ne_none_iff_exists'.1 fun hnone => hin (houtermost ?_)
      obtain ⟨region, hregion⟩ := hs.exists_hasRegion hpending.1
      obtain ⟨hhost, hexecution, -⟩ := h.sited r region hregion
      rw [← hhost, ← hexecution, ← RunKey.caller?_eq_none.1 hnone]
    obtain ⟨c₀, hc₀⟩ := hcaller
    obtain ⟨n, rfl⟩ := RunKey.eq_nested hc₀
    obtain ⟨stage, hx⟩ := hr.shows c₀
    have hnested := (hx.nested n).1 hpending
    obtain ⟨op₀, hflight₀⟩ := hs.inFlight_of_pending hx hpending
    obtain ⟨y₀, hy₀, hnode₀, -, -, hhost₀, hexecution₀⟩ := h.site hs hflight₀.operation
    refine hc.not_writes hflight₀ hr ?_ (hhost₁.trans hhost₀.symm) (hexecution₁.trans hexecution₀.symm)
      (hc.not_encloses hflight₀ hr) (fun he => ?_) (hi c₀ n op₀ _ rfl ⟨y₀, hy₀, hnode₀, rfl⟩)
    · rintro rfl
      rw [hx.leaf ((hs.isLeaf_iff hc.operation).2 ⟨_, _, rfl⟩)] at hnested
      cases hnested
    · obtain ⟨-, n', e, -, -, hpending', he, hec⟩ := hc.of_encloses hr he
      obtain rfl := Option.some.inj (hnested.symm.trans ((hx.nested n').1 hpending'))
      exact hin ⟨e, he, hec⟩

/-- A leaf operation in flight changes what it waits for, and the slots that it writes. -/
structure Changes (c : CallKey) (f : Footprint) (d d' : Bench) : Prop where
  size : d'.arena.size = d.arena.size
  frame : ∀ i, f.writes (.slot i) = false → d'.arena.slots[i]? = d.arena.slots[i]?
  waiting : ∀ c' ≠ c, d'.waiting c' = d.waiting c'

theorem Grounded.change (h : s.Grounded m x k d) (hr : ReachableWhile Faithful P.backend s)
    (hc : s.InFlight c (.leaf info act)) (hd : Changes c (Operation.leaf info act).footprint d d') :
    s.Grounded m x k d' where
  sited := h.sited
  size := hd.size.trans h.size
  ended := h.ended
  slots r y i j hgoes hy hi hcurrent := by
    rw [hd.frame i (h.not_writes hr hc hgoes hy hi hcurrent)]
    exact h.slots r y i j hgoes hy hi hcurrent
  waits c' hc' := by
    by_cases hcc : c' = c
    · exact ⟨info, act, hcc ▸ hc⟩
    · exact h.waits c' (hd.waiting c' hcc ▸ hc')
  asked := h.asked
  settles := h.settles

theorem Grounded.agreeOn_change {op' : Operation α} (h : s.Grounded m x k d)
    (hr : ReachableWhile Faithful P.backend s) (hc : s.InFlight c (.leaf info act))
    (hd : Changes c (Operation.leaf info act).footprint d d') (hcc : c' ≠ c)
    (hc' : s.InFlight c' op') (hout : ¬ c'.Encloses c) :
    d'.arena.AgreeOn op'.footprint d.arena := by
  have hs := hr.reachable.sound
  obtain ⟨-, -, -, -, -, hhost, hexecution⟩ := h.site hs hc.operation
  obtain ⟨-, -, -, -, -, hhost', hexecution'⟩ := h.site hs hc'.operation
  exact ⟨hd.size, fun i hi => hd.frame i (hc.not_writes hc' hr hcc.symm (hhost.trans hhost'.symm)
    (hexecution.trans hexecution'.symm) (hc.not_encloses hc' hr) hout hi)⟩

/-- Other calls in flight stand as they do. -/
theorem Grounded.stood_change (h : s.Grounded m x k d) (hr : ReachableWhile Faithful P.backend s)
    (hc : s.InFlight c (.leaf info act)) (hd : Changes c (Operation.leaf info act).footprint d d')
    (hcc : c' ≠ c) (hz : s.world.call? c' = some z) (hcalls : m.Calls x c' op a)
    (hstood : s.Stood m d c' op a z) : s.Stood m d' c' op a z := by
  have hs := hr.reachable.sound
  obtain ⟨-, op', hop⟩ := hs.operation_of_call hz
  obtain ⟨y', hy', hnode', -⟩ := h.site hs hop
  obtain ⟨rfl, rfl⟩ := hcalls.unique ⟨y', hy', hnode', rfl⟩
  have hflight : s.InFlight c' op' := ⟨⟨z, hz⟩, hop⟩
  have hagree := h.agreeOn_change hr hc hd hcc hflight
  cases hstood with
  | nests hnot hx hstands =>
    refine .nests hnot hx (hstands.frame fun hnested => hagree fun he => ?_)
    obtain ⟨-, n, -, -, -, hpending, -⟩ := hc.of_encloses hr he
    cases hnested.symm.trans ((hx.nested n).1 hpending)
  | leaf hleaf hawaits =>
    subst hleaf
    exact .leaf rfl (hawaits.frame (hagree (hflight.not_encloses hc hr)) (hd.waiting c' hcc))

end Machine.Crew

end OpFlow
