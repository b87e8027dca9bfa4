import OpFlow.Proofs.Order.Apart

/-!
Every execution on a bench accords with program order as long as no task gets lost, whatever its
threads, its runners and its events do first.
-/
namespace OpFlow

open Machine

variable {α : Type} [Leaf α]

omit [Leaf α] in
theorem Machine.World.deviceAfter_eq {σ : Type} {b : Backend α σ Empty} {w : World α σ Empty}
    {item : Item α Empty} {d : σ} (h : ∀ c info act, item = .call c →
      w.operation? c ≠ some (.leaf info act)) : w.deviceAfter b item d = d := by
  cases item with
  | call c =>
    rw [deviceAfter]
    split
    case h_1 info act hop => exact absurd hop (h c info act rfl)
    case h_2 => rfl
  | effect e =>
    cases e with
    | settle => rfl
    | work x | submit k x => exact x.elim
  | _ => rfl

namespace Machine.Crew

variable {s t : Crew α Bench Empty} {m : Meaning α} {P : Conduct α} {x y : Site α} {d d' : Bench}
  {k i j n : Nat} {r : RunKey} {c c' : CallKey} {op : Operation α} {a : Arena} {o : Outcome}
  {p : Process} {z : Call} {item : Item α Empty} {rest items : List (Item α Empty)}
  {tasks : List (Task Empty)} {agenda : List (Item α Empty)} {w : World α Bench Empty}
  {run : RunKey → Option (Run α)} {call : CallKey → Option Call}

theorem Grounded.faithful (h : s.Grounded m x k d) (hs : s.Sound) : s.Faithful :=
  fun _ hitems c o hmem _ hop => (hs.isLeaf_iff hop).1 (h.asked c o ⟨_, hitems, hmem⟩).1

/-! ### New threads -/

structure Joins (s t : Crew α Bench Empty) (tasks : List (Task Empty)) (agenda : List (Item α Empty)) :
    Prop where
  spawned : s.Spawned t tasks agenda []
  log : t.log = s.log
  plain : ∀ y ∈ agenda, Item.IsPlain y

namespace Joins

omit [Leaf α] in
theorem asked (h : s.Joins t tasks agenda) (c : CallKey) (o : Outcome) :
    t.Asked c o ↔ s.Asked c o ∨ .effect (.settle c o) ∈ agenda := by
  simp only [Asked, h.spawned.threads, List.mem_append, List.mem_singleton, or_and_right,
    exists_or, exists_eq_left]

omit [Leaf α] in
theorem operation (h : s.Joins t tasks agenda) (c : CallKey) :
    t.world.operation? c = s.world.operation? c := by
  simp only [World.operation?, h.spawned.run]

omit [Leaf α] in
theorem hasRegion (h : s.Joins t tasks agenda) {region : Program α} (hr : t.HasRegion r region) :
    s.HasRegion r region := by
  rcases hr with hr | ⟨items, hitems, hmem⟩
  · exact .inl (h.spawned.begun ▸ hr)
  · rw [h.spawned.threads, List.mem_append, List.mem_singleton] at hitems
    rcases hitems with hitems | rfl
    · exact .inr ⟨items, hitems, hmem⟩
    · exact absurd rfl ((h.plain _ hmem).start _ _)

omit [Leaf α] in
theorem pending (h : s.Joins t tasks agenda) (hr : t.Pending r) : s.Pending r := by
  refine ⟨(h.spawned.hasBegun_iff (fun region hmem => (h.plain _ hmem).start _ _ rfl) (by simp)).1
    hr.1, fun o => ?_⟩
  rw [← h.log]
  exact hr.2 o

omit [Leaf α] in
theorem inFlight (h : s.Joins t tasks agenda) (hc : s.InFlight c op) : t.InFlight c op :=
  ⟨by rw [h.spawned.call]; exact hc.call, by rw [h.operation]; exact hc.operation⟩

omit [Leaf α] in
theorem belongs (h : s.Joins t tasks agenda) : t.Belongs c op ↔ s.Belongs c op := by
  simp only [Belongs, h.spawned.begun]

theorem grounded (h : s.Joins t tasks agenda) (hs : s.Grounded m x k d)
    (hasked : ∀ c o, .effect (.settle c o) ∈ agenda → s.IsLeaf c ∧ .launched c ∈ s.log) :
    t.Grounded m x k d where
  sited r region hr := hs.sited r region (h.hasRegion hr)
  size := hs.size
  ended c o op a ho := hs.ended c o op a (h.log ▸ ho)
  slots r y i j hr hy hi hcurrent := hs.slots r y i j (hr.imp_right h.pending) hy hi
    ⟨fun l hl op hop hw => h.log ▸ hcurrent.before l hl op hop hw, fun l hl op hop hw =>
      h.log ▸ hcurrent.after l hl op hop hw⟩
  waits c hc := by
    obtain ⟨info, act, hflight⟩ := hs.waits c hc
    exact ⟨info, act, h.inFlight hflight⟩
  asked c o ho := by
    rw [h.log, show t.IsLeaf c ↔ s.IsLeaf c by simp only [IsLeaf, h.belongs]]
    exact ((h.asked c o).1 ho).elim (hs.asked c o) (hasked c o)
  settles items hitems c o hmem := by
    rw [h.spawned.threads, List.mem_append, List.mem_singleton] at hitems
    rcases hitems with hitems | rfl
    · obtain ⟨op, hop, hnot⟩ := hs.settles items hitems c o hmem
      exact ⟨op, h.belongs.2 hop, hnot⟩
    · cases (h.plain _ hmem).token

theorem stood (h : s.Joins t tasks agenda) (hc : s.Stood m d c op a z)
    (hnone : ∀ o, .effect (.settle c o) ∉ agenda) : t.Stood m d c op a z := by
  cases hc with
  | nests hnot hx hstands =>
    exact .nests hnot (hx.spawned h.spawned (by rw [h.log, List.append_nil]) (fun y hy =>
      ⟨(h.plain y hy).token, fun r region hr => absurd hr ((h.plain y hy).start r region)⟩) (by simp))
      hstands
  | leaf hleaf hawaits =>
    exact .leaf hleaf (hawaits.congr fun o => by
      rw [h.asked]
      exact or_iff_left (hnone o))

end Joins

/-! ### Leaf operations -/

theorem changes_go (hp : p.Confined op.footprint) : Changes c op.footprint d (d.go c p).1 where
  size := by rw [Bench.arena_go]; exact hp.confines_step.size _
  frame i hi := by rw [Bench.arena_go]; exact hp.confines_step.frame _ i hi
  waiting c' hc := Bench.waiting_go hc

/-- The event resolves for which a call waits. -/
theorem Accords.resolve (h : s.Accords P.meaning x k s.world.device)
    (hr : ReachableWhile Faithful P.backend s) (hc : s.world.device.waiting c ≠ none)
    (hm : Move P.backend (.outside (Bench.resolve c)) s t) :
    t.Accords P.meaning x k t.world.device := by
  have hs := hr.reachable.sound
  obtain ⟨p, hp⟩ := Option.ne_none_iff_exists'.1 hc
  obtain ⟨info, act, hflight⟩ := h.waits c hc
  have hgo : Bench.resolve c s.world.device = s.world.device.go c p := by
    rw [Bench.resolve, hp]
  cases hm
  have hsp := spawned_outside s (Bench.resolve c)
  rw [hgo] at hsp ⊢
  have hjoins : Joins s _ [] _ := ⟨hsp, rfl, fun y hy => by
    obtain ⟨e, -, rfl⟩ := List.mem_map.1 hy
    exact ⟨rfl, nofun⟩⟩
  have hmem : ∀ {c' o}, .effect (.settle c' o) ∈
      (s.world.device.go c p).2.map (Item.effect (α := α)) → c' = c ∧
        .settle c o ∈ (s.world.device.go c p).2 := fun hmem => by
    obtain ⟨e, he, heq⟩ := List.mem_map.1 hmem
    obtain rfl := Item.effect.inj heq
    obtain ⟨o', ho'⟩ := Bench.mem_go he
    obtain ⟨rfl, rfl⟩ := Effect.settle.inj ho'
    exact ⟨rfl, he⟩
  obtain ⟨y₁, hy₁, hnode₁, -⟩ := h.site hs hflight.operation
  obtain ⟨z₁, hz₁⟩ := hflight.call
  have hcalls₁ : P.meaning.Calls x c _ (P.meaning.before y₁ c.node) := ⟨y₁, hy₁, hnode₁, rfl⟩
  have hawaits : s.Awaits P.meaning s.world.device c (.leaf info act)
      (P.meaning.before y₁ c.node) z₁ := by
    cases h.calls c _ _ z₁ hz₁ hcalls₁ with
    | nests hnot => exact absurd rfl (hnot info act)
    | leaf _ hawaits => exact hawaits
  obtain ⟨hleft, hunsettled, hnone⟩ := hawaits.waiting p hp
  have hchanges := changes_go (c := c) (d := s.world.device) hleft.confined
  refine ⟨hjoins.grounded (h.change hr hflight hchanges) fun c' o hmem' => ?_,
    fun c' op a z hz hcalls => ?_⟩
  · obtain ⟨rfl, -⟩ := hmem hmem'
    exact ⟨(hs.isLeaf_iff hflight.operation).2 ⟨_, _, rfl⟩, hs.launched_of_call hz₁⟩
  · have hz' : s.world.call? c' = some z := hz
    by_cases hcc : c' = c
    · subst hcc
      obtain rfl := Option.some.inj (hz₁.symm.trans hz')
      obtain ⟨rfl, rfl⟩ := hcalls₁.unique hcalls
      refine .leaf rfl (.of_go hleft hunsettled fun o => ?_)
      rw [hjoins.asked, or_iff_right (hnone o)]
      exact ⟨fun hmem' => (hmem hmem').2, fun hmem' => List.mem_map_of_mem hmem'⟩
    · exact hjoins.stood (h.stood_change hr hflight hchanges hcc hz' hcalls
        (h.calls c' op a z hz' hcalls)) fun o hmem' => hcc (hmem hmem').1

/-- What comes of the launch of a leaf operation. -/
theorem Does.of_leaf {info : OpInfo} {act : α}
    (hdoes : s.Does P n (.call c) rest items tasks w run call)
    (hop : s.world.operation? c = some (.leaf info act)) : call c = some {} ∧
      items = (s.world.device.go c (P.process act)).2.map .effect ++ [.returned c] := by
  have hm := hdoes.move
  cases hm with
  | spares hitem => cases hitem
  | ended hitem | settled hitem | void hitem => simp [Item.Settles] at hitem
  | uncalled hop' => cases hop.symm.trans hop'
  | called hop' hopens =>
    cases hop.symm.trans hop'
    cases hopens with
    | leaf hlaunch =>
      obtain rfl := Except.ok.inj hlaunch
      exact ⟨Function.update_self .., rfl⟩
    | panicked hlaunch => cases hlaunch

theorem Does.inFlight_of_leaf {info : OpInfo} {act : α}
    (hdoes : s.Does P n (.call c) rest items tasks w run call)
    (hop : s.world.operation? c = some (.leaf info act)) :
    (s.after n (.call c) w).InFlight c (.leaf info act) :=
  have hcall := (hdoes.of_leaf hop).1
  ⟨⟨_, (congrFun hdoes.became.call c).trans hcall⟩, hdoes.operation hop hcall⟩

/-- The device changes as a leaf operation is launched, and stays as it is otherwise. -/
theorem Does.device_cases (hdoes : s.Does P n item rest items tasks w run call) :
    (∃ c info act, item = .call c ∧ s.world.operation? c = some (.leaf info act) ∧
      w.device = (s.world.device.go c (P.process act)).1) ∨
    (∀ c info act, item = .call c → s.world.operation? c ≠ some (.leaf info act)) ∧
      w.device = s.world.device := by
  have hdevice : w.device = World.deviceAfter P.backend (s.seenBy (item :: rest)) item s.world.device :=
    World.device_step? rfl hdoes.step
  by_cases hlaunch : ∃ c info act, item = .call c ∧ s.world.operation? c = some (.leaf info act)
  · obtain ⟨c, info, act, rfl, hop⟩ := hlaunch
    refine .inl ⟨c, info, act, rfl, hop, hdevice.trans ?_⟩
    have hop' : (s.seenBy (.call c :: rest)).operation? c = some (.leaf info act) := hop
    simp only [World.deviceAfter, hop']
    rfl
  · have hnot : ∀ c info act, item = .call c → s.world.operation? c ≠ some (.leaf info act) :=
      fun c info act hitem hop => hlaunch ⟨c, info, act, hitem, hop⟩
    exact .inr ⟨hnot, hdevice.trans (World.deviceAfter_eq hnot)⟩

/-- A leaf operation is launched. -/
theorem Accords.launch {info : OpInfo} {act : α} (h : s.Accords P.meaning x k s.world.device)
    (hr' : ReachableWhile Faithful P.backend (s.after n (.call c) w))
    (hdoes : s.Does P n (.call c) rest items tasks w run call)
    (hground : (s.after n (.call c) w).Grounded P.meaning x k s.world.device)
    (hstood : ∀ c' ≠ c, ∀ op a y', (s.after n (.call c) w).world.call? c' = some y' →
      P.meaning.Calls x c' op a → (s.after n (.call c) w).Stood P.meaning s.world.device c' op a y')
    (hop : s.world.operation? c = some (.leaf info act))
    (hdevice : w.device = (s.world.device.go c (P.process act)).1) :
    (s.after n (.call c) w).Accords P.meaning x k w.device := by
  have hs := hdoes.sound
  obtain ⟨y, hy, hnode, -⟩ := h.site hs hop
  have hcalls : P.meaning.Calls x c _ (P.meaning.before y c.node) := ⟨y, hy, hnode, rfl⟩
  have hleft := P.left (h.found hs hdoes.after hdoes.head hop hcalls)
  have hchanges := changes_go (c := c) (d := s.world.device) hleft.confined
  -- the item puts what the operation asks for in front
  obtain ⟨hcall, hitems⟩ := hdoes.of_leaf hop
  have hasked : ∀ o, .settle c o ∈ (s.world.device.go c (P.process act)).2 →
      (s.after n (.call c) w).Asked c o := fun o ho => by
    refine ⟨w.agenda, List.mem_set (List.getElem?_eq_some_iff.1 hdoes.head).1 _, ?_⟩
    rw [hdoes.became.agenda, hitems]
    exact List.mem_append_left _ (List.mem_append_left _ (List.mem_map_of_mem ho))
  have hflight := hdoes.inFlight_of_leaf hop
  have hcall' : (s.after n (.call c) w).world.call? c = some {} :=
    (congrFun hdoes.became.call c).trans hcall
  rw [hdevice]
  refine ⟨hground.change hr' hflight hchanges, fun c' op a y' hy' hcalls' => ?_⟩
  by_cases hcc : c' = c
  · subst hcc
    obtain rfl := Option.some.inj (hcall'.symm.trans hy')
    obtain ⟨rfl, rfl⟩ := hcalls.unique hcalls'
    refine .leaf rfl (.of_go hleft nofun fun o => ⟨fun ho => ?_, hasked o⟩)
    rcases ho.of_after hdoes.head hdoes.step with hold | ⟨info', act', -, hop', hmem⟩
    · exact absurd (h.asked _ o hold).2 (hs.not_launched_of_call hdoes.head)
    · cases hop.symm.trans hop'
      exact hmem
  · exact hground.stood_change hr' hflight hchanges hcc hy' hcalls'
      (hstood c' hcc op a y' hy' hcalls')

/-- A thread does its first item. -/
theorem Accords.act (h : s.Accords P.meaning x k s.world.device)
    (hr : ReachableWhile Faithful P.backend s) (hm : Move P.backend (.act n) s t)
    (hkept : ∀ c, .dropped c ∉ t.log)
    (hchooses : ∀ c op a, P.meaning.Calls x c op a → op.Chooses) :
    t.Accords P.meaning x k t.world.device := by
  have hs := hr.reachable.sound
  have hf := h.faithful hs
  have hr' := hr.move hf hm
  obtain @⟨_, _, item, rest, w, hn, hw⟩ := hm
  obtain ⟨items, tasks, run, call, hdoes⟩ := hs.exists_does hn hw
  have hground := h.grounded_after hdoes hr.shows
  have hstood : ∀ c op a y', (s.after n item w).world.call? c = some y' →
      P.meaning.Calls x c op a → (∀ info act, item = .call c → op ≠ .leaf info act) →
        (s.after n item w).Stood P.meaning s.world.device c op a y' := fun c op a y' hy' hcalls hnew =>
    h.stood_after hf hdoes hr.shows hr'.reachable hkept hchooses hy' hcalls hnew
  rcases hdoes.device_cases with ⟨c, info, act, rfl, hop, hdevice⟩ | ⟨hnot, hsame⟩
  · exact h.launch hr' hdoes hground (fun c' hcc op a y' hy' hcalls => hstood c' op a y' hy' hcalls
      fun info act hitem => absurd (Item.call.inj hitem).symm hcc) hop hdevice
  · have hsame' : (s.after n item w).world.device = s.world.device := hsame
    rw [hsame']
    refine ⟨hground, fun c op a y' hy' hcalls => hstood c op a y' hy' hcalls fun info act hitem hleaf =>
      ?_⟩
    subst hitem hleaf
    have hcall : call c = some y' := (congrFun hdoes.became.call c).symm.trans hy'
    obtain ⟨-, op', hop⟩ := hdoes.move.of_new (hs.call?_of_call hn).1 hcall
    obtain ⟨y, hy, hnode, -⟩ := h.site hs hop
    obtain ⟨rfl, -⟩ := hcalls.unique ⟨y, hy, hnode, rfl⟩
    exact hnot c info act rfl hop

/-- A runner gives a task. -/
theorem Accords.take {task : Task Empty} {left : Runner (Task Empty)}
    (h : s.Accords m x k s.world.device) (hm : Move P.backend (.take n task left) s t) :
    t.Accords m x k t.world.device := by
  cases hm with | @take _ _ _ _ _ hq hgives => ?_
  cases task with
  | work i => exact i.elim
  | visit r' node =>
    have hsp := spawned_of_give s hq hgives s.world.device (World.tasks (.visit r' node)) []
    rw [List.append_nil] at hsp
    have hjoins : Joins s _ [.visit r' node] (World.tasks (.visit r' node)) := ⟨hsp, rfl, fun y hy => by
      rcases List.mem_cons.1 hy with rfl | hy
      · exact ⟨rfl, nofun⟩
      · obtain rfl := List.mem_singleton.1 hy
        exact ⟨rfl, nofun⟩⟩
    have hnone : ∀ c o, .effect (.settle c o) ∉ (World.tasks (.visit r' node) : List (Item α Empty)) :=
      fun c o hmem => by simp [World.tasks] at hmem
    refine ⟨hjoins.grounded h.toGrounded fun c o hmem => absurd hmem (hnone c o),
      fun c op a z hz hcalls => ?_⟩
    have hz' : s.world.call? c = some z := hz
    exact hjoins.stood (h.calls c op a z hz' hcalls) (hnone c)

/-- An execution is to begin, and nothing has happened yet. -/
structure Begins (k : Nat) (program : Program α) (s : Crew α Bench Empty) : Prop where
  sound : s.Sound
  log : s.log = []
  begun : s.begun = []
  threads : s.threads = [[.start ⟨k, 0, []⟩ program]]
  call : ∀ c, s.world.call? c = none

theorem begins_execute {w : World α Bench Empty} {host : Host α} (hw : w.IsFresh)
    (hk : w.hosts[k]? = some host) : Begins k host.program (execute k { world := w }) := by
  have hsp := spawned_of_execute ({ world := w } : Crew α Bench Empty) hk
  have hs := (sound_fresh hw).execute hk
  have heq : execute k ({ world := w } : Crew α Bench Empty) =
      ({ world := w.modifyHost k fun h => { h with executions := h.executions.push {} } } :
        Crew α Bench Empty).spawn [.start ⟨k, host.executions.size, []⟩ host.program] := by
    rw [execute, hk]
  have hexecutions : host.executions.size = 0 := by
    rw [hw.executions host (Array.mem_of_getElem? hk)]
    rfl
  rw [heq]
  rw [hexecutions] at hsp hs ⊢
  refine ⟨hs, rfl, rfl, rfl, fun c => ?_⟩
  rw [hsp.call]
  simp [World.call?, hw.execution?_eq_none]

namespace Begins

variable {program : Program α}

theorem eq_start (h : Begins k program s) (hitems : items ∈ s.threads) (hmem : item ∈ items) :
    item = .start ⟨k, 0, []⟩ program := by
  rw [h.threads, List.mem_singleton] at hitems
  rwa [hitems, List.mem_singleton] at hmem

theorem hasRegion {region : Program α} (h : Begins k program s) (hr : s.HasRegion r region) :
    r = ⟨k, 0, []⟩ ∧ region = program := by
  rcases hr with hr | ⟨items, hitems, hmem⟩
  · rw [h.begun] at hr
    cases hr
  · exact Item.start.inj (h.eq_start hitems hmem)

/-- An execution accords with program order as it begins. -/
theorem accords {d : Bench} (h : Begins k program s) (hwaiting : ∀ c, d.waiting c = none) :
    s.Accords m ⟨program, d.arena⟩ k d := by
  constructor
  case toGrounded =>
    constructor
    case sited =>
      intro r region hr
      obtain ⟨rfl, rfl⟩ := h.hasRegion hr
      exact ⟨rfl, rfl, _, .here, rfl⟩
    case size => rfl
    case ended => simp [h.log]
    case slots =>
      intro r y i j hr hy _ hcurrent
      obtain rfl : r = ⟨k, 0, []⟩ := by
        rcases hr with hr | hr
        · exact hr
        · obtain ⟨region, hr⟩ := h.sound.exists_hasRegion hr.1
          exact (h.hasRegion hr).1
      cases hy
      rw [Meaning.before_slot (Nat.zero_le j) fun l op _ hl hop => ?_, Meaning.before_zero]
      by_contra hw'
      have := hcurrent.before l hl op hop (by simpa using hw')
      rw [h.log] at this
      cases this
    case waits => exact fun c hc => absurd (hwaiting c) hc
    case asked =>
      rintro c o ⟨items, hmem, hitem⟩
      cases h.eq_start hmem hitem
    case settles =>
      intro items hmem c o hitem
      cases h.eq_start hmem hitem
  case calls =>
    intro c op a y hy
    cases (h.call c).symm.trans hy

end Begins

theorem Move.kept {b : Backend α Bench Empty} {ch : Choice Bench Empty} (hm : Move b ch s t)
    (hkept : ∀ c, .dropped c ∉ t.log) (c : CallKey) : .dropped c ∉ s.log := fun hc => by
  obtain ⟨events, hlog, -⟩ := hm.log
  exact hkept c (hlog ▸ List.mem_append_left _ hc)

theorem Proceeds.exists_move (h : s.Proceeds P t) : ∃ ch, Move P.backend ch s t := by
  cases h with
  | act hm | take hm | resolve _ hm => exact ⟨_, hm⟩

theorem Accords.proceed (h : s.Accords P.meaning x k s.world.device)
    (hr : ReachableWhile Faithful P.backend s) (hp : s.Proceeds P t)
    (hkept : ∀ c, .dropped c ∉ t.log)
    (hchooses : ∀ c op a, P.meaning.Calls x c op a → op.Chooses) :
    ReachableWhile Faithful P.backend t ∧ t.Accords P.meaning x k t.world.device := by
  have hf := h.faithful hr.reachable.sound
  cases hp with
  | act hm => exact ⟨hr.move hf hm, h.act hr hm hkept hchooses⟩
  | take hm => exact ⟨hr.move hf hm, h.take hm⟩
  | resolve hc hm => exact ⟨hr.move hf hm, h.resolve hr hc hm⟩

/-- Every execution of which no task gets lost accords with program order. -/
theorem Executes.accords {w : World α Bench Empty} {host : Host α} (h : Executes P w k s)
    (hk : w.hosts[k]? = some host) (hkept : ∀ c, .dropped c ∉ s.log)
    (hchooses : ∀ c op a, P.meaning.Calls ⟨host.program, w.device.arena⟩ c op a → op.Chooses) :
    ReachableWhile Faithful P.backend s ∧
      s.Accords P.meaning ⟨host.program, w.device.arena⟩ k s.world.device := by
  induction h with
  | start hw hwaiting hk' =>
    have hbase := (begins_execute hw hk).accords (m := P.meaning) hwaiting
    have hdevice : (execute k ({ world := w } : Crew α Bench Empty)).world.device = w.device := by
      rw [execute, hk]
      rfl
    refine ⟨?_, hdevice.symm ▸ hbase⟩
    have hmove : Move P.backend (.execute k) { world := w } (execute k { world := w }) := by
      rw [execute, hk]
      exact .execute hk
    exact (ReachableWhile.fresh hw).move (fun _ hitems => absurd hitems List.not_mem_nil) hmove
  | proceed hs hp ih =>
    obtain ⟨_, hm⟩ := hp.exists_move
    obtain ⟨hr, hacc⟩ := ih (hm.kept hkept)
    exact hacc.proceed hr hp hkept hchooses

end Machine.Crew

end OpFlow
