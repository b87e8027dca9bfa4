import OpFlow.Proofs.Feed.Turns

/-!
What holds while a program feeds. Nothing but its feeds is about to end one of them, what is in the
feeds is what the program and the host have left there, and every step keeps that: a call of a feed, a
buffer that the host puts in or takes, and all that leaves the feeds alone.
-/
namespace OpFlow

open Machine (Backend CallKey Crew Effect Scene)
open Platform (backend)

namespace FeedJob

variable {J : FeedJob} {s t : Crew Primitive Platform Work} {T U : Traffic}
  {ch : Crew.Choice Platform Work} {i : Nat} {c : CallKey} {info : OpInfo} {op : Primitive}
  {destinations sources : List Slice} {token : Resource} {d : Platform}
  {effects : List (Effect Work)}

namespace Step

theorem move (h : J.Step ch s T t U) : Crew.Move backend ch s t := by
  cases h <;> assumption

theorem occasion (h : J.Step ch s T t U) {change : Platform → Platform × List (Effect Work)}
    (hch : ch = .outside change) : Platform.Occasion change := by
  cases h with
  | own hm hown => exact absurd hch (hown change)
  | put bytes =>
    cases hch
    exact .putIn J.host bytes
  | outside hm ho =>
    cases hch
    exact ho

end Step

/-- A crew that executes the program, with what has gone through the feeds so far: nothing but feeds
is about to end a feed, and the feeds hold what they are to hold. -/
structure Carries (J : FeedJob) (s : Crew Primitive Platform Work) (T : Traffic) : Prop where
  staged : s.Staged backend J.plan
  programs : ∀ k, s.world.program? k = J.world.program? k
  contexts : s.world.device.contextOf = J.world.device.contextOf
  spares : s.world.device.Spares J.FeedCall
  owes : ∀ w, s.scene.Owes w → w.Spares J.FeedCall
  infed : ∃ n intake, J.Infed s.scene T.given T.received n intake
  outfed : ∃ m, J.Outfed s.scene T.sent m

namespace Carries

/-- Before anything has happened nothing has gone through the feeds. -/
theorem start (hJ : J.IsWellFormed) : J.Carries { world := J.world } {} := by
  have hkept : J.world.kept = [] := by
    rw [Machine.World.kept, List.flatMap_eq_nil_iff]
    exact fun q hq => hJ.fresh.queued q (by simpa using hq)
  have hcall : ∀ c, J.world.call? c = none := fun c => by
    simp [Machine.World.call?, hJ.fresh.execution?_eq_none]
  have hscene : ({ world := J.world } : Crew Primitive Platform Work).scene =
      ⟨J.world.device, [], fun _ => none, ∅, ∅⟩ := by
    rw [Crew.scene, Scene.mk.injEq]
    exact ⟨rfl, by simp [Crew.requests, hkept], funext fun c => by rw [hcall]; rfl, by simp, by simp⟩
  have hsettling : ∀ c o, ¬ (⟨J.world.device, [], fun _ => none, ∅, ∅⟩ :
      Scene Platform Work).Settling c o := fun c o ho => by
    rcases ho with ho | ho | ho <;> cases ho
  obtain ⟨host, hhost, hfeeds, houtfed⟩ := hJ.feeds
  refine ⟨⟨.fresh hJ.fresh, ⟨?_, by simp, fun c y hy => ?_⟩, ?_⟩, fun _ => rfl, rfl, ?_, ?_, ?_, ?_⟩
  · rintro r region (hr | ⟨items, hitems, -⟩)
    · cases hr
    · cases hitems
  · rw [hcall] at hy
    cases hy
  · rw [hscene]
    exact Scene.orderly_start
  · refine ⟨by simp [hJ.quiet.waiting], by simp [hJ.quiet.gridRuns], by simp [hJ.deferred],
      fun k port hport t ht => ?_⟩
    obtain ⟨state, hstate, rfl⟩ := Option.map_eq_some_iff.1 hport
    rw [hJ.quiet.takers k state hstate] at ht
    cases ht
  · rw [hscene]
    rintro w ⟨e, he, -⟩
    cases he
  · rw [hscene]
    refine ⟨0, fun _ => 0, by simp, ?_, rfl, by simp, fun i ds o _ ho => absurd ho (hsettling _ o)⟩
    rw [Platform.infeedOf, Platform.portOf, hhost]
    simp [hfeeds, slots]
  · rw [hscene]
    exact ⟨0, by simp, rfl, ⟨host, hhost, HostState.sent_nil (by rw [hfeeds]) houtfed⟩,
      fun i ss o _ ho => absurd ho (hsettling _ o)⟩

variable (hs : J.Carries s T)

include hs

theorem staged_step (hJ : J.IsWellFormed) (h : J.Step ch s T t U) : t.Staged backend J.plan := by
  refine hs.staged.move hJ.isPlan h.move fun k host hch hk => ⟨rfl, fun hhost => ?_, ?_⟩
  · obtain rfl : k = J.host := hhost
    cases h with
    | own hm hown honce => exact honce hch host hk
    | put | outside => cases hch
  · rw [← hs.programs, Machine.World.program?, hk]
    rfl

theorem step (hJ : J.IsWellFormed) (h : J.Step ch s T t U) (hg : s.scene.Gives d effects t.scene)
    (hd : d.Spares J.FeedCall) (heffects : ∀ e ∈ effects, ∀ w, e.work? = some w → w.Spares J.FeedCall)
    (hinfed : ∃ n intake, J.Infed t.scene U.given U.received n intake)
    (houtfed : ∃ m, J.Outfed t.scene U.sent m) : J.Carries t U where
  staged := hs.staged_step hJ h
  programs k := (h.move.program? k).trans (hs.programs k)
  contexts := (h.move.contextOf fun _ hch p => (h.occasion hch).contextOf p).trans hs.contexts
  spares := by
    rw [← hg.device] at hd
    exact hd
  owes w hw := (hg.owes w hw).elim (hs.owes w) fun ⟨e, he, hwork⟩ => heffects e he w hwork
  infed := hinfed
  outfed := houtfed

theorem context (hJ : J.IsWellFormed) :
    (s.scene.device.contextOf J.host).requireFeeds = .ok () := by
  change (s.world.device.contextOf J.host).requireFeeds = _
  rw [hs.contexts]
  exact hJ.context

theorem of_aside (hJ : J.IsWellFormed) (h : J.Step ch s T t T) (hg : s.scene.Gives d effects t.scene)
    (hd : s.world.device.Aside J.host J.FeedCall d effects)
    (hl : ∀ c, J.FeedCall c → (c ∈ t.scene.launched ↔ c ∈ s.scene.launched))
    (hsub : s.scene.launched ⊆ t.scene.launched) : J.Carries t T := by
  obtain ⟨n, intake, hinfed⟩ := hs.infed
  obtain ⟨m, houtfed⟩ := hs.outfed
  exact hs.step hJ h hg hd.spares (fun e he w => (hd.effects e he).of_work?)
    ⟨n, intake, hinfed.aside hd hg fun i ds hi => hl _ (feedCall_of_destinations hi)⟩
    ⟨m, houtfed.aside hd hg hsub⟩

omit hs in
/-- A call of the program that is no feed. -/
theorem not_feedCall (hJ : J.IsWellFormed) {x' : Scene Platform Work}
    (hcalls : s.scene.Calls backend J.plan c info op x') (hop : op.IsFeed → c.run.host ≠ J.host) :
    ¬ J.FeedCall c := by
  intro hc
  obtain ⟨region, hr, hnode, -⟩ := hcalls.planned
  obtain ⟨-, -, hperforms⟩ := hJ.of_plan hr hnode (by rw [hc.1]; rfl)
  refine hop ?_ (by rw [hc.1]; rfl)
  rcases hc.2 with hd | hd
  · obtain ⟨ds, hd⟩ := Option.isSome_iff_exists.1 hd
    obtain ⟨token, hd⟩ := destinations?_eq_some.1 hd
    rw [hperforms.unique hd]
    trivial
  · obtain ⟨ss, hd⟩ := Option.isSome_iff_exists.1 hd
    obtain ⟨token, hd⟩ := sources?_eq_some.1 hd
    rw [hperforms.unique hd]
    trivial

/-- An infeed of the program is called. -/
theorem call_infeed (hJ : J.IsWellFormed) (hi : J.destinations? i = some destinations)
    (hcalls : s.scene.Calls backend J.plan (J.key i) info (.infeed destinations token) t.scene)
    (h : J.Step ch s T t
      (J.called s.world.device (some (J.key i, info, .infeed destinations token)) T)) :
    J.Carries t (J.called s.world.device (some (J.key i, info, .infeed destinations token)) T) := by
  obtain ⟨n, intake, hinfed⟩ := hs.infed
  obtain ⟨m, houtfed⟩ := hs.outfed
  have hctx := hs.context hJ
  obtain ⟨ht, heffects⟩ := hs.spares.tends_launchInfeed (J.key i) destinations
  have hsettles : ∀ e ∈ Backend.opening (J.key i)
      (backend.launch (J.key i) info (.infeed destinations token) s.scene.device).2,
      ∃ o, e = .settle (J.key i) o := heffects
  refine hs.step hJ h hcalls.gives ht.spares (fun e he w hw => ?_)
    (hinfed.launch hJ hs.staged.orderly hctx hi hcalls) ⟨m, ?_⟩
  · obtain ⟨o, rfl⟩ := hsettles e he
    cases hw
  · have hkept : J.Outfed t.scene T.sent m := by
      refine houtfed.congr ?_ hcalls.subset fun j ss o hj ho => ?_
      · rw [hcalls.gives.device]
        exact (Platform.launchInfeed_written (c := J.key i) hinfed.feed hctx destinations).1
      · refine (hcalls.gives.settling _ o ho).resolve_right fun he => ?_
        obtain ⟨o', heq⟩ := hsettles _ he
        obtain rfl := key_inj.1 (Effect.settle.inj heq).1
        rw [not_sources hi] at hj
        cases hj
    rwa [sent_called, putOut_infeed, List.append_nil]

/-- An outfeed of the program is called. -/
theorem call_outfeed (hJ : J.IsWellFormed) (hi : J.sources? i = some sources)
    (hcalls : s.scene.Calls backend J.plan (J.key i) info (.outfeed sources token) t.scene)
    (h : J.Step ch s T t
      (J.called s.world.device (some (J.key i, info, .outfeed sources token)) T)) :
    J.Carries t (J.called s.world.device (some (J.key i, info, .outfeed sources token)) T) := by
  obtain ⟨n, intake, hinfed⟩ := hs.infed
  obtain ⟨m, houtfed⟩ := hs.outfed
  obtain ⟨ht, heffects⟩ := hs.spares.tends_launchOutfeed (J.key i) sources
  have hsettles : ∀ e ∈ Backend.opening (J.key i)
      (backend.launch (J.key i) info (.outfeed sources token) s.scene.device).2,
      ∃ o, e = .settle (J.key i) o := heffects
  obtain ⟨hfeed, hintakes⟩ := s.world.device.launchOutfeed_spares (J.key i) sources
  have hne : ∀ {j ds}, J.destinations? j = some ds → j ≠ i := fun hj heq => by
    rw [heq] at hj
    rw [not_sources hj] at hi
    cases hi
  refine hs.step hJ h hcalls.gives ht.spares (fun e he w hw => ?_) ⟨n, intake, ?_⟩
    (houtfed.launch hJ (hs.context hJ) hi hcalls)
  · obtain ⟨o, rfl⟩ := hsettles e he
    cases hw
  · have hkept : J.Infed t.scene T.given T.received n intake := by
      refine hinfed.of_outfeed hcalls.gives hfeed hintakes (fun j ds hj => ?_) fun j ds o hj he => ?_
      · rw [hcalls.launched, Set.mem_insert_iff, key_inj]
        exact or_iff_right (hne hj)
      · obtain ⟨o', heq⟩ := hsettles _ he
        exact hne hj (key_inj.1 (Effect.settle.inj heq).1)
    rwa [received_called, taken_outfeed, List.append_nil]

/-- An operation is called. -/
theorem call (hJ : J.IsWellFormed) (hcalls : s.scene.Calls backend J.plan c info op t.scene)
    (h : J.Step ch s T t (J.called s.world.device (some (c, info, op)) T)) :
    J.Carries t (J.called s.world.device (some (c, info, op)) T) := by
  by_cases hop : op.IsFeed ∧ c.run.host = J.host
  · obtain ⟨region, hr, hnode, -⟩ := hcalls.planned
    obtain ⟨hkey, -, hperforms⟩ := hJ.of_plan hr hnode hop.2
    obtain ⟨i, rfl⟩ : ∃ i, c = J.key i := ⟨_, hkey⟩
    cases op with
    | infeed destinations token =>
      exact hs.call_infeed hJ (destinations?_eq_some.2 ⟨token, hperforms⟩) hcalls h
    | outfeed sources token =>
      exact hs.call_outfeed hJ (sources?_eq_some.2 ⟨token, hperforms⟩) hcalls h
    | _ => exact hop.1.elim
  · have hne : op.IsFeed → c.run.host ≠ J.host := fun hfeed hhost => hop ⟨hfeed, hhost⟩
    have hc := not_feedCall hJ hcalls hne
    rw [called_eq_self hne] at h ⊢
    refine hs.of_aside hJ h hcalls.gives (hs.spares.aside_launch hne hc) (fun c' hc' => ?_)
      hcalls.subset
    rw [hcalls.launched, Set.mem_insert_iff]
    exact or_iff_right fun heq => hc (heq ▸ hc')

theorem aside_deed (hd : s.scene.Deed backend d effects) :
    s.world.device.Aside J.host J.FeedCall d effects := by
  cases hd with
  | idle => exact hs.spares.aside_self nofun
  | perform hw => exact hs.spares.aside_perform (hs.owes _ hw)
  | discard hw => exact hs.spares.aside_discard (hs.owes _ hw)

/-- The host puts in a buffer. -/
theorem put (hJ : J.IsWellFormed) {bytes : Bytes}
    (h : J.Step (.outside fun p => p.putIn J.host bytes) s T t (J.fed s.world.device bytes T)) :
    J.Carries t (J.fed s.world.device bytes T) := by
  obtain ⟨n, intake, hinfed⟩ := hs.infed
  obtain ⟨m, houtfed⟩ := hs.outfed
  obtain ⟨hl, hg⟩ := Crew.scene_outside h.move
  obtain ⟨hout, heffects, -⟩ := hinfed.putIn_written bytes
  refine hs.step hJ h hg (hs.spares.tends_putIn J.host bytes).1.spares (fun e he w hw => ?_)
    ⟨n, intake, hinfed.put hg hl⟩ ⟨m, houtfed.congr ?_ hl.ge fun j ss o hj ho => ?_⟩
  · obtain ⟨c, o, rfl, -⟩ := (hs.spares.tends_putIn J.host bytes).2 e he
    cases hw
  · rw [hg.device]
    exact hout
  · refine (hg.settling _ o ho).resolve_right fun he => ?_
    obtain ⟨i, ds, hi, hkey⟩ := heffects _ _ he
    obtain rfl := key_inj.1 hkey
    rw [not_sources hi] at hj
    cases hj

theorem take (hJ : J.IsWellFormed)
    (h : J.Step (.outside fun p => (p.takeOut J.host, [])) s T t T) : J.Carries t T := by
  obtain ⟨n, intake, hinfed⟩ := hs.infed
  obtain ⟨m, houtfed⟩ := hs.outfed
  obtain ⟨hl, hg⟩ := Crew.scene_outside h.move
  exact hs.step hJ h hg (hs.spares.tends_modifyHost J.host HostState.infeed_fetching).spares nofun
    ⟨n, intake, hinfed.of_outfeed hg (Platform.infeedOf_modifyHost HostState.infeed_fetching _ _) rfl
      (fun i ds _ => by rw [hl]) nofun⟩ ⟨m, houtfed.take hg hl⟩

/-- Every step keeps the feeds in order. -/
theorem next (hJ : J.IsWellFormed) (h : J.Step ch s T t U) : J.Carries t U := by
  have hall := h
  cases h with
  | own hm hch honce =>
    obtain ⟨hcall, hnone⟩ := hs.staged.scene_move hJ.isPlan (fun _ _ _ => IsWellFormed.plan_unique) hm hch
    cases hcalling : s.calling? ch with
    | some x =>
      rw [hcalling] at hall
      exact hs.call hJ (hcall _ _ _ hcalling) hall
    | none =>
      obtain ⟨hl, d, effects, hd, hg⟩ := hnone hcalling
      rw [hcalling, called_none] at hall
      rw [called_none]
      exact hs.of_aside hJ hall hg (hs.aside_deed hd) (fun c _ => by rw [hl]) hl.ge
  | put bytes hm => exact hs.put hJ hall
  | @outside change _ _ _ hm ho hput =>
    by_cases htake : change = fun p => (p.takeOut J.host, [])
    · subst htake
      exact hs.take hJ hall
    · obtain ⟨hl, hg⟩ := Crew.scene_outside hm
      exact hs.of_aside hJ hall hg
        (ho.aside (fun c hc => by rw [hc.1]; rfl) hs.spares hput htake) (fun c _ => by rw [hl]) hl.ge

end Carries

theorem Runs.carries (hJ : J.IsWellFormed) (h : J.Runs s T) : J.Carries s T := by
  induction h with
  | start => exact .start hJ
  | step _ h ih => exact ih.next hJ h

end FeedJob

end OpFlow
