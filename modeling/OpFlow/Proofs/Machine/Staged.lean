import OpFlow.Proofs.Frame.Touched

/-!
Scenes of crews that go on in any way, not only by themselves: tasks may get lost, and the device may
change from outside. Every move either calls an operation or lets the device change by something that
was asked for or comes from outside; and whatever is about to end, or owed, was so before or has just
been asked for.
-/
namespace OpFlow.Machine

variable {α σ ι : Type}

namespace Scene

def Settling (x : Scene σ ι) (c : CallKey) (o : Outcome) : Prop :=
  .settle c o ∈ x.requests ∨ x.progress c = some (.settled o) ∨ (c, o) ∈ x.ended

/-- Some work has been asked for. -/
def Owes (x : Scene σ ι) (w : ι) : Prop := ∃ e ∈ x.requests, e.work? = some w

/-- The device has changed, and nothing is new but what has been asked for then. -/
structure Gives (x : Scene σ ι) (device : σ) (effects : List (Effect ι)) (x' : Scene σ ι) : Prop where
  device : x'.device = device
  owes : ∀ w, x'.Owes w → x.Owes w ∨ ∃ e ∈ effects, e.work? = some w
  settling : ∀ c o, x'.Settling c o → x.Settling c o ∨ .settle c o ∈ effects
  ended : x.ended ⊆ x'.ended

inductive Deed (b : Backend α σ ι) (x : Scene σ ι) : σ → List (Effect ι) → Prop
  | idle : Deed b x x.device []
  | perform {w : ι} (h : x.Owes w) :
      Deed b x (b.perform w x.device).1 (b.perform w x.device).2.1
  | discard {w : ι} (h : x.Owes w) : Deed b x (b.discard w x.device).1 (b.discard w x.device).2

/-- An operation is called. -/
structure Calls [Leaf α] (b : Backend α σ ι) (Q : RunKey → Program α → Prop) (x : Scene σ ι)
    (c : CallKey) (info : OpInfo) (a : α) (x' : Scene σ ι) : Prop where
  planned : ∃ region, Q c.run region ∧ region.ops[c.node]? = some (.leaf info a) ∧
    ∀ i < c.node, region.graph.conflicts i c.node → (⟨c.run, i⟩, .ok ()) ∈ x.ended
  new : c ∉ x.launched
  launched : x'.launched = insert c x.launched
  gives : x.Gives (b.launch c info a x.device).1 (Backend.opening c (b.launch c info a x.device).2) x'

variable {b : Backend α σ ι} {Q : RunKey → Program α → Prop} {x x' : Scene σ ι} {d : σ}
  {effects : List (Effect ι)}

theorem Calls.subset [Leaf α] {c : CallKey} {info : OpInfo} {a : α} (h : x.Calls b Q c info a x') :
    x.launched ⊆ x'.launched := by
  rw [h.launched]
  exact Set.subset_insert _ _

theorem gives_of {p : List (Effect ι)} {progress : CallKey → Option Progress} {launched : Set CallKey}
    {ended : Set (CallKey × Outcome)} (hp : ∀ e ∈ p, e ∈ effects ∨ e ∈ x.requests)
    (hprogress : ∀ c o, progress c = some (.settled o) → x.Settling c o)
    (hended : ∀ c o, (c, o) ∈ ended → x.Settling c o) (hsub : x.ended ⊆ ended) :
    x.Gives d effects ⟨d, p, progress, launched, ended⟩ := by
  refine ⟨rfl, fun w hw => ?_, fun c o hc => ?_, hsub⟩
  · obtain ⟨e, he, hwork⟩ := hw
    exact (hp e he).elim (fun he => .inr ⟨e, he, hwork⟩) fun he => .inl ⟨e, he, hwork⟩
  · rcases hc with hc | hc | hc
    · exact (hp _ hc).elim .inr fun hc => .inl (.inl hc)
    · exact .inl (hprogress c o hc)
    · exact .inl (hended c o hc)

theorem settling_of_progress {c : CallKey} {o : Outcome} (h : x.progress c = some (.settled o)) :
    x.Settling c o := .inr (.inl h)

theorem settling_of_ended {c : CallKey} {o : Outcome} (h : (c, o) ∈ x.ended) : x.Settling c o :=
  .inr (.inr h)

theorem settling_of_update {c : CallKey} {q : Option Progress}
    (hq : ∀ o, q = some (.settled o) → x.Settling c o) (d : CallKey) (o : Outcome)
    (h : Function.update x.progress c q d = some (.settled o)) : x.Settling d o := by
  by_cases hd : d = c
  · subst hd
    rw [Function.update_self] at h
    exact hq o h
  · rw [Function.update_of_ne hd] at h
    exact settling_of_progress h

theorem settling_of_insert {c : CallKey} {o : Outcome} (hc : x.Settling c o) (d : CallKey)
    (o' : Outcome) (h : (d, o') ∈ insert (c, o) x.ended) : x.Settling d o' := by
  rcases h with h | h
  · obtain ⟨rfl, rfl⟩ := Prod.mk.inj h
    exact hc
  · exact settling_of_ended h

variable [Leaf α]

/-- A step calls an operation, or lets the device change by what was asked for. -/
theorem Step.calls_or (hx : Step b Q x x') :
    (∃ c info a, x.Calls b Q c info a x') ∨
      x'.launched = x.launched ∧ ∃ d effects, x.Deed b d effects ∧ x.Gives d effects x' := by
  have hidle : ∀ {p : List (Effect ι)}, p ⊆ x.requests → ∀ {progress ended},
      (∀ c o, progress c = some (.settled o) → x.Settling c o) →
      (∀ c o, (c, o) ∈ ended → x.Settling c o) → x.ended ⊆ ended →
        ∃ d effects, x.Deed b d effects ∧
          x.Gives d effects ⟨x.device, p, progress, x.launched, ended⟩ :=
    fun hp _ _ hprogress hended hsub =>
      ⟨_, _, .idle, gives_of (fun e he => .inr (hp he)) hprogress hended hsub⟩
  cases hx with
  | idle hp =>
    exact .inr ⟨rfl, hidle hp.subset (fun _ _ => settling_of_progress)
      (fun _ _ => settling_of_ended) subset_rfl⟩
  | @launch c info a region device r p hr hop hnew hnone hbefore hlaunch hp =>
    refine .inl ⟨c, info, a, ⟨region, hr, hop, hbefore⟩, hnew, rfl, ?_⟩
    rw [hlaunch]
    exact gives_of (fun e he => List.mem_append.1 (hp.mem_iff.1 he))
      (settling_of_update fun o ho => by cases ho) (fun _ _ => settling_of_ended) subset_rfl
  | await hc hq hp =>
    exact .inr ⟨rfl, hidle hp.subset (settling_of_update fun o ho => by cases ho)
      (fun _ _ => settling_of_ended) subset_rfl⟩
  | finish hc hp =>
    exact .inr ⟨rfl, hidle hp.subset (settling_of_update fun o ho => by cases ho)
      (settling_of_insert (settling_of_progress hc)) (Set.subset_insert _ _)⟩
  | @settle c o p hx hc =>
    have hsettle : x.Settling c o := .inl (hx.mem_iff.2 List.mem_cons_self)
    refine .inr ⟨rfl, hidle (fun e he => hx.mem_iff.2 (List.mem_cons_of_mem _ he))
      (settling_of_update fun o' ho' => ?_) (fun _ _ => settling_of_ended) subset_rfl⟩
    cases ho'
    exact hsettle
  | @resume c o p hx hc =>
    have hsettle : x.Settling c o := .inl (hx.mem_iff.2 List.mem_cons_self)
    exact .inr ⟨rfl, hidle (fun e he => hx.mem_iff.2 (List.mem_cons_of_mem _ he))
      (settling_of_update fun o' ho' => by cases ho') (settling_of_insert hsettle)
      (Set.subset_insert _ _)⟩
  | void hx hc =>
    exact .inr ⟨rfl, hidle (fun e he => hx.mem_iff.2 (List.mem_cons_of_mem _ he))
      (fun _ _ => settling_of_progress) (fun _ _ => settling_of_ended) subset_rfl⟩
  | @work w rest p hx hp =>
    refine .inr ⟨rfl, _, _, .perform ⟨_, hx.mem_iff.2 List.mem_cons_self, rfl⟩, ?_⟩
    exact gives_of (fun e he => (List.mem_append.1 (hp.mem_iff.1 he)).imp id fun he =>
      hx.mem_iff.2 (List.mem_cons_of_mem _ he)) (fun _ _ => settling_of_progress)
      (fun _ _ => settling_of_ended) subset_rfl
  | @submit k w rest p hx hp =>
    -- the work that is done now was to be submitted before
    refine .inr ⟨rfl, _, _, .idle, rfl, fun v hv => .inl ?_, fun c o hc => .inl ?_, subset_rfl⟩
    · obtain ⟨e, he, hwork⟩ := hv
      rcases List.mem_cons.1 (hp.mem_iff.1 he) with rfl | he
      · exact ⟨_, hx.mem_iff.2 List.mem_cons_self, hwork⟩
      · exact ⟨e, hx.mem_iff.2 (List.mem_cons_of_mem _ he), hwork⟩
    · refine hc.imp (fun hc => ?_) id
      rcases List.mem_cons.1 (hp.mem_iff.1 hc) with heq | hc
      · cases heq
      · exact hx.mem_iff.2 (List.mem_cons_of_mem _ hc)
  | @lose k w rest p hx hp =>
    refine .inr ⟨rfl, _, _, .discard ⟨_, hx.mem_iff.2 List.mem_cons_self, rfl⟩, ?_⟩
    exact gives_of (fun e he => (List.mem_append.1 (hp.mem_iff.1 he)).imp id fun he =>
      hx.mem_iff.2 (List.mem_cons_of_mem _ he)) (fun _ _ => settling_of_progress)
      (fun _ _ => settling_of_ended) subset_rfl

end Scene

namespace Crew

variable {b : Backend α σ ι} {Q : RunKey → Program α → Prop} {s t : Crew α σ ι} {ch : Choice σ ι}

/-- The operation that a choice calls. -/
def calling? (s : Crew α σ ι) : Choice σ ι → Option (CallKey × OpInfo × α)
  | .act i =>
    match s.threads[i]? with
    | some (.call c :: _) =>
      match s.world.operation? c with
      | some (.leaf info a) => some (c, info, a)
      | _ => none
    | _ => none
  | .take _ _ _ | .drop _ _ _ | .outside _ | .execute _ => none

theorem calling?_eq_some {c : CallKey} {info : OpInfo} {a : α}
    (h : s.calling? ch = some (c, info, a)) : ∃ i rest, ch = .act i ∧
      s.threads[i]? = some (.call c :: rest) ∧ s.world.operation? c = some (.leaf info a) := by
  unfold calling? at h
  split at h
  · next i =>
    split at h
    · next c' rest hi =>
      split at h
      · next hop =>
        cases h
        exact ⟨i, rest, rfl, hi, hop⟩
      · cases h
    · cases h
  all_goals cases h

section Spawned

variable {tasks : List (Task ι)} {agenda : List (Item α ι)} {events : List Event}

theorem Spawned.scene_eq (h : s.Spawned t tasks agenda events) (hlog : t.log = s.log ++ events)
    (hevents : ∀ e ∈ events, ∃ c, e = .dropped c) :
    t.scene = ⟨t.world.device, t.requests, s.scene.progress, s.scene.launched, s.scene.ended⟩ := by
  have hlaunched : ∀ c, .launched c ∉ events := fun c hc => by
    obtain ⟨d, hd⟩ := hevents _ hc
    cases hd
  have hended : ∀ c o, .ended c o ∉ events := fun c o hc => by
    obtain ⟨d, hd⟩ := hevents _ hc
    cases hd
  rw [scene, Scene.mk.injEq]
  refine ⟨rfl, rfl, by rw [h.call]; rfl, Set.ext fun c => ?_, Set.ext fun y => ?_⟩
  · simp [hlog, hlaunched, scene]
  · simp [hlog, hended, scene]

theorem Straight.spawned (h : s.Straight Q) (hsp : s.Spawned t tasks agenda events)
    (hturns : ∀ x ∈ agenda, ¬ x.Turns)
    (hstart : ∀ r region, .start r region ∈ agenda → Q r region) : t.Straight Q := by
  refine ⟨fun r region hr => ?_, fun items hitems x hx => ?_, fun c y hy => ?_⟩
  · rcases hr with hr | ⟨items, hitems, hmem⟩
    · exact h.runs r region (.inl (hsp.begun ▸ hr))
    · rw [hsp.threads] at hitems
      rcases List.mem_append.1 hitems with hitems | hitems
      · exact h.runs r region (.inr ⟨items, hitems, hmem⟩)
      · obtain rfl := List.mem_singleton.1 hitems
        exact hstart r region hmem
  · rw [hsp.threads] at hitems
    rcases List.mem_append.1 hitems with hitems | hitems
    · exact h.turnless items hitems x hx
    · obtain rfl := List.mem_singleton.1 hitems
      exact hturns x hx
  · rw [hsp.call] at hy
    exact h.loop c y hy

theorem Spawned.mem_requests (h : s.Spawned t tasks agenda events)
    (hkept : ∀ x ∈ t.world.kept, x ∈ s.world.kept) {e : Effect ι} (he : e ∈ t.requests) :
    e ∈ agenda.filterMap Item.effect? ∨ e ∈ s.requests := by
  rw [requests, h.threads, List.flatMap_append, List.flatMap_singleton] at he
  rcases List.mem_append.1 he with he | he
  · exact (List.mem_append.1 he).elim (fun he => .inr (List.mem_append_left _ he)) .inl
  · obtain ⟨x, hx, hxe⟩ := List.mem_filterMap.1 he
    exact .inr (List.mem_append_right _ (List.mem_filterMap.2 ⟨x, hkept x hx, hxe⟩))

theorem Spawned.scene_gives (h : s.Spawned t tasks agenda events) (hlog : t.log = s.log ++ events)
    (hevents : ∀ e ∈ events, ∃ c, e = .dropped c) (hkept : ∀ x ∈ t.world.kept, x ∈ s.world.kept) :
    t.scene.launched = s.scene.launched ∧
      s.scene.Gives t.world.device (agenda.filterMap Item.effect?) t.scene := by
  rw [h.scene_eq hlog hevents]
  exact ⟨rfl, Scene.gives_of (fun e he => h.mem_requests hkept he)
    (fun _ _ => Scene.settling_of_progress) (fun _ _ => Scene.settling_of_ended) subset_rfl⟩

theorem Spawned.orderly [Leaf α] (h : s.Spawned t tasks agenda events)
    (hlog : t.log = s.log ++ events) (hevents : ∀ e ∈ events, ∃ c, e = .dropped c)
    (hs : s.scene.Orderly Q) : t.scene.Orderly Q := by
  rw [h.scene_eq hlog hevents]
  exact ⟨hs.launched, hs.called, hs.ended, hs.planned⟩

end Spawned

theorem spawned_lose_work (b : Backend α σ ι) (s : Crew α σ ι) {k : Nat} {q q' : Runner (Task ι)}
    {w : ι} (hk : s.world.runners[k]? = some q) (hq : q.Gives (.work w) q') :
    s.Spawned (lose b { s with world := s.world.setRunner k q' } (.work w)) [.work w]
      ((b.discard w s.world.device).2.map .effect) [] := by
  have h := spawned_of_give s hk hq (b.discard w s.world.device).1
    ((b.discard w s.world.device).2.map .effect) []
  rwa [List.append_nil] at h

theorem filterMap_effect (effects : List (Effect ι)) :
    (effects.map (Item.effect : Effect ι → Item α ι)).filterMap Item.effect? = effects := by
  simp [List.filterMap_map, Function.comp_def, Item.effect?]

variable [Leaf α]

/-- A crew of which each run is one of a plan, with what holds of its scene. -/
structure Staged (s : Crew α σ ι) (b : Backend α σ ι) (Q : RunKey → Program α → Prop) : Prop where
  reachable : Reachable b s
  straight : s.Straight Q
  orderly : s.scene.Orderly Q

theorem scene_outside {change : σ → σ × List (Effect ι)} (hm : Move b (.outside change) s t) :
    t.scene.launched = s.scene.launched ∧
      s.scene.Gives (change s.world.device).1 (change s.world.device).2 t.scene := by
  cases hm
  have hgives := (spawned_outside s change).scene_gives (List.append_nil _).symm (by simp)
    fun x hx => hx
  rwa [filterMap_effect] at hgives

theorem deed_of_step (h : Scene.Step b Q s.scene t.scene)
    (hsame : ∀ c, .launched c ∈ t.log → .launched c ∈ s.log) :
    t.scene.launched = s.scene.launched ∧
      ∃ d effects, s.scene.Deed b d effects ∧ s.scene.Gives d effects t.scene := by
  rcases h.calls_or with ⟨c, info, a, hc⟩ | h
  · have hmem : c ∈ t.scene.launched := by
      rw [hc.launched]
      exact Set.mem_insert ..
    exact absurd (hsame c hmem) hc.new
  · exact h

/-- Any other move calls an operation, or lets the device change by what was asked for. -/
theorem Staged.scene_move (hs : s.Staged b Q) (hQ : IsPlan Q)
    (hunique : ∀ r region region', Q r region → Q r region' → region = region')
    (hm : Move b ch s t) (hch : ∀ change, ch ≠ .outside change) :
    (∀ c info a, s.calling? ch = some (c, info, a) → s.scene.Calls b Q c info a t.scene) ∧
    (s.calling? ch = none → t.scene.launched = s.scene.launched ∧
      ∃ d effects, s.scene.Deed b d effects ∧ s.scene.Gives d effects t.scene) := by
  have hsound := hs.reachable.sound
  cases hm with
  | @act _ i item rest w hi hw =>
    have hstep := hs.straight.scene_act hQ hsound hi hw
    refine ⟨fun c info a hc => ?_, fun hnone => deed_of_step hstep fun c hc => ?_⟩
    · obtain ⟨i', rest', hi', hhead, hop⟩ := calling?_eq_some hc
      cases hi'
      obtain ⟨rfl, rfl⟩ := List.cons.inj (Option.some.inj (hi.symm.trans hhead))
      have hlog : .launched c ∈ (s.after i (.call c) w).log :=
        List.mem_append_right _ (mem_noted_launched.2 ⟨rfl, by rw [hop]; rfl⟩)
      rcases hstep.calls_or with ⟨c', info', a', hcalls⟩ | ⟨hsame, -⟩
      · have hmem : c ∈ insert c' s.scene.launched := hcalls.launched ▸ hlog
        obtain rfl := hmem.resolve_right (hsound.not_launched_of_call hi)
        obtain ⟨region, hr, hop', -⟩ := hcalls.planned
        obtain ⟨region', -, -, -, hr', hnode, -⟩ := hs.straight.leaf_of_operation hQ hsound hop
        obtain rfl := hunique _ _ _ hr hr'
        cases hop'.symm.trans hnode
        exact hcalls
      · have hmem : c ∈ (s.after i (.call c) w).scene.launched := hlog
        rw [hsame] at hmem
        exact absurd hmem (hsound.not_launched_of_call hi)
    · rcases List.mem_append.1 hc with hc | hc
      · exact hc
      · obtain ⟨rfl, hsome⟩ := mem_noted_launched.1 hc
        obtain ⟨op, hop⟩ := Option.isSome_iff_exists.1 hsome
        obtain ⟨-, info, a, -, -, -, rfl⟩ := hs.straight.leaf_of_operation hQ hsound hop
        have hcalling : s.calling? (.act i) = some (c, info, a) := by
          simp only [calling?, hi, hop]
        rw [hcalling] at hnone
        cases hnone
  | take hk hr =>
    exact ⟨fun c info a hc => (by cases hc), fun _ =>
      deed_of_step (scene_take (Q := Q) hk hr) fun c hc => hc⟩
  | @drop _ k q q' task hk hr =>
    have hkept := World.kept_give hk hr
    have hsub : ∀ x ∈ (s.world.setRunner k q').kept, x ∈ s.world.kept := fun x hx =>
      hkept.mem_iff.2 (List.mem_cons_of_mem _ hx)
    refine ⟨fun c info a hc => (by cases hc), fun _ => ?_⟩
    cases task with
    | visit r j =>
      have hgives := (spawned_of_give s hk hr s.world.device [.release r]
        [.dropped ⟨r, j⟩]).scene_gives rfl (by simp) hsub
      exact ⟨hgives.1, _, _, .idle, hgives.2⟩
    | work x =>
      have hgives := (spawned_lose_work b s hk hr).scene_gives (List.append_nil _).symm (by simp) hsub
      rw [filterMap_effect] at hgives
      have howes : s.scene.Owes x := ⟨.work x, List.mem_append_right _
        (List.mem_filterMap.2 ⟨.work x, hkept.mem_iff.2 List.mem_cons_self, rfl⟩), rfl⟩
      exact ⟨hgives.1, _, _, .discard howes, hgives.2⟩
  | outside change => exact absurd rfl (hch change)
  | execute hk =>
    have hgives := (spawned_of_execute s hk).scene_gives (List.append_nil _).symm (by simp)
      fun x hx => hx
    exact ⟨fun c info a hc => (by cases hc), fun _ => ⟨hgives.1, _, _, .idle, hgives.2⟩⟩

theorem Staged.move (hs : s.Staged b Q) (hQ : IsPlan Q) (hm : Move b ch s t)
    (hexecute : ∀ k host, ch = .execute k → s.world.hosts[k]? = some host →
      Q ⟨k, host.executions.size, []⟩ host.program) : t.Staged b Q := by
  have hnil : s.log = s.log ++ [] := (List.append_nil _).symm
  refine ⟨hs.reachable.move hm, ?_, ?_⟩
  · cases hm with
    | act hi hw => exact hs.straight.act hQ hs.reachable.sound hi hw
    | take hk hr => exact hs.straight.take
    | @drop _ k q q' task hk hr =>
      cases task with
      | visit r j =>
        exact hs.straight.spawned
          (spawned_of_give s hk hr s.world.device [.release r] [.dropped ⟨r, j⟩])
          (by simp [Item.Turns]) (by simp)
      | work x =>
        exact hs.straight.spawned (spawned_lose_work b s hk hr) (by simp [Item.Turns]) (by simp)
    | outside change =>
      exact hs.straight.spawned (spawned_outside s change) (by simp [Item.Turns]) (by simp)
    | @execute _ k host hk =>
      refine hs.straight.spawned (spawned_of_execute s hk) (by simp [Item.Turns])
        fun r region hmem => ?_
      obtain ⟨rfl, rfl⟩ : r = ⟨k, host.executions.size, []⟩ ∧ region = host.program := by
        simpa using hmem
      exact hexecute k host rfl hk
  · cases hm with
    | act hi hw => exact hs.orderly.step (hs.straight.scene_act hQ hs.reachable.sound hi hw)
    | take hk hr => exact hs.orderly.step (b := b) (scene_take hk hr)
    | @drop _ k q q' task hk hr =>
      cases task with
      | visit r j =>
        exact (spawned_of_give s hk hr s.world.device [.release r] [.dropped ⟨r, j⟩]).orderly rfl
          (by simp) hs.orderly
      | work x => exact (spawned_lose_work b s hk hr).orderly hnil (by simp) hs.orderly
    | outside change => exact (spawned_outside s change).orderly hnil (by simp) hs.orderly
    | execute hk => exact (spawned_of_execute s hk).orderly hnil (by simp) hs.orderly

end Crew

end OpFlow.Machine
