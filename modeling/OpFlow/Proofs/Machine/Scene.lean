import OpFlow.Proofs.Async.Cells
import OpFlow.Proofs.Machine.Flight
import OpFlow.Proofs.Machine.Inner
import Mathlib.Data.Set.Insert

/-!
Runs of leaf operations, seen from the backend. A scene is what is left of a crew when one looks
only at the launches of operations, at what the backend has asked for, and at how far the operations
have come. Every move of the crew is a step of its scene: an operation is launched once, and later
than those end well that come before it and conflict with it.
-/
namespace OpFlow.Machine

variable {α σ ι : Type}

structure Scene (σ ι : Type) where
  device : σ
  /-- What the backend has asked for and what has not been carried out. -/
  requests : List (Effect ι)
  progress : CallKey → Option Progress
  launched : Set CallKey
  ended : Set (CallKey × Outcome)

def Backend.opening (c : CallKey) : Except String (List (Effect ι)) → List (Effect ι)
  | .ok effects => effects
  | .error text => [.settle c (.error (.panicked text))]

def Region.IsStraight (region : Program α) : Prop := ∀ op ∈ region.ops, ∃ info a, op = .leaf info a

/-- What may happen next to a scene, where `Q` says which runs there are. -/
inductive Scene.Step [Leaf α] (b : Backend α σ ι) (Q : RunKey → Program α → Prop)
    (x : Scene σ ι) : Scene σ ι → Prop
  | idle {p : List (Effect ι)} (hp : p.Perm x.requests) : Step b Q x { x with requests := p }
  | launch {c : CallKey} {info : OpInfo} {a : α} {region : Program α} {device : σ}
      {r : Except String (List (Effect ι))} {p : List (Effect ι)} (hr : Q c.run region)
      (hop : region.ops[c.node]? = some (.leaf info a)) (hnew : c ∉ x.launched)
      (hnone : x.progress c = none)
      (hbefore : ∀ i < c.node, region.graph.conflicts i c.node → (⟨c.run, i⟩, .ok ()) ∈ x.ended)
      (hlaunch : b.launch c info a x.device = (device, r))
      (hp : p.Perm (Backend.opening c r ++ x.requests)) :
      Step b Q x ⟨device, p, Function.update x.progress c (some .entered), insert c x.launched,
        x.ended⟩
  | await {c : CallKey} {q : Progress} {p : List (Effect ι)} (hc : x.progress c = some q)
      (hq : ∀ o, q ≠ .settled o) (hp : p.Perm x.requests) :
      Step b Q x { x with requests := p, progress := Function.update x.progress c (some .awaited) }
  /-- A call has returned that has ended already. -/
  | finish {c : CallKey} {o : Outcome} {p : List (Effect ι)} (hc : x.progress c = some (.settled o))
      (hp : p.Perm x.requests) :
      Step b Q x { x with
        requests := p
        progress := Function.update x.progress c none
        ended := insert (c, o) x.ended }
  /-- A call ends that has not returned yet. -/
  | settle {c : CallKey} {o : Outcome} {p : List (Effect ι)}
      (hx : x.requests.Perm (.settle c o :: p)) (hc : x.progress c = some .entered) :
      Step b Q x { x with
        requests := p
        progress := Function.update x.progress c (some (.settled o)) }
  /-- A call ends that has returned before. -/
  | resume {c : CallKey} {o : Outcome} {p : List (Effect ι)}
      (hx : x.requests.Perm (.settle c o :: p)) (hc : x.progress c = some .awaited) :
      Step b Q x { x with
        requests := p
        progress := Function.update x.progress c none
        ended := insert (c, o) x.ended }
  | void {c : CallKey} {o : Outcome} {p : List (Effect ι)}
      (hx : x.requests.Perm (.settle c o :: p))
      (hc : ∀ q, x.progress c = some q → ∃ o', q = .settled o') :
      Step b Q x { x with requests := p }
  | work {i : ι} {rest p : List (Effect ι)} (hx : x.requests.Perm (.work i :: rest))
      (hp : p.Perm ((b.perform i x.device).2.1 ++ rest)) :
      Step b Q x { x with device := (b.perform i x.device).1, requests := p }
  | submit {k : Nat} {i : ι} {rest p : List (Effect ι)}
      (hx : x.requests.Perm (.submit k i :: rest)) (hp : p.Perm (.work i :: rest)) :
      Step b Q x { x with requests := p }
  | lose {k : Nat} {i : ι} {rest p : List (Effect ι)}
      (hx : x.requests.Perm (.submit k i :: rest))
      (hp : p.Perm ((b.discard i x.device).2 ++ rest)) :
      Step b Q x { x with device := (b.discard i x.device).1, requests := p }

/-- What launches and ends have to do with each other: an operation that was launched is in flight or
has ended, and it is one of the plan, of which those have ended well that come before it and conflict
with it. -/
structure Scene.Orderly [Leaf α] (Q : RunKey → Program α → Prop) (x : Scene σ ι) : Prop where
  launched : ∀ c ∈ x.launched, x.progress c = none → ∃ o, (c, o) ∈ x.ended
  called : ∀ c q, x.progress c = some q → c ∈ x.launched ∧ ∀ o, (c, o) ∉ x.ended
  ended : ∀ c o, (c, o) ∈ x.ended → c ∈ x.launched
  planned : ∀ c ∈ x.launched, ∃ region info a, Q c.run region ∧
    region.ops[c.node]? = some (.leaf info a) ∧
      ∀ i < c.node, region.graph.conflicts i c.node → (⟨c.run, i⟩, .ok ()) ∈ x.ended

section Orderly

variable [Leaf α] {b : Backend α σ ι} {Q : RunKey → Program α → Prop} {x x' : Scene σ ι}

theorem Scene.orderly_start {d : σ} {p : List (Effect ι)} :
    Scene.Orderly Q (⟨d, p, fun _ => none, ∅, ∅⟩ : Scene σ ι) :=
  ⟨by simp, by simp, by simp, by simp⟩

theorem Scene.Orderly.move (h : x.Orderly Q) {c : CallKey} {q q' : Progress} {d : σ}
    {p : List (Effect ι)} (hc : x.progress c = some q) :
    Scene.Orderly Q (⟨d, p, Function.update x.progress c (some q'), x.launched, x.ended⟩ :
      Scene σ ι) := by
  refine ⟨fun e he hnone => ?_, fun e r hr => ?_, h.ended, h.planned⟩
  · by_cases hec : e = c
    · simp [hec] at hnone
    · exact h.launched e he (by simpa [hec] using hnone)
  · by_cases hec : e = c
    · exact hec ▸ h.called c q hc
    · exact h.called e r (by simpa [hec] using hr)

/-- A call ends. -/
theorem Scene.Orderly.finish (h : x.Orderly Q) {c : CallKey} {q : Progress} {o : Outcome} {d : σ}
    {p : List (Effect ι)} (hc : x.progress c = some q) :
    Scene.Orderly Q (⟨d, p, Function.update x.progress c none, x.launched,
      insert (c, o) x.ended⟩ : Scene σ ι) := by
  refine ⟨fun e he hnone => ?_, fun e r hr => ?_, fun e o' he => ?_, fun e he => ?_⟩
  · by_cases hec : e = c
    · exact ⟨o, .inl (by rw [hec])⟩
    · obtain ⟨o', ho'⟩ := h.launched e he (by simpa [hec] using hnone)
      exact ⟨o', .inr ho'⟩
  · by_cases hec : e = c
    · simp [hec] at hr
    · have := h.called e r (by simpa [hec] using hr)
      simpa [hec] using this
  · rcases he with he | he
    · obtain ⟨rfl, -⟩ := Prod.mk.inj he
      exact (h.called e q hc).1
    · exact h.ended e o' he
  · obtain ⟨region, info, a, hq, hop, hbefore⟩ := h.planned e he
    exact ⟨region, info, a, hq, hop, fun i hi hc => .inr (hbefore i hi hc)⟩

theorem Scene.Orderly.step (h : x.Orderly Q) (hx : Scene.Step b Q x x') : x'.Orderly Q := by
  cases hx with
  | idle | void | work | submit | lose => exact ⟨h.launched, h.called, h.ended, h.planned⟩
  | @launch c info a region device r p hr hop hnew hnone hbefore =>
    refine ⟨fun e he hprogress => ?_, fun e q hq => ?_, fun e o he => .inr (h.ended e o he),
      fun e he => ?_⟩
    · by_cases hec : e = c
      · simp [hec] at hprogress
      · exact h.launched e (he.resolve_left hec) (by simpa [hec] using hprogress)
    · by_cases hec : e = c
      · exact ⟨.inl hec, fun o ho => hnew (hec ▸ h.ended e o ho)⟩
      · obtain ⟨hl, hend⟩ := h.called e q (by simpa [hec] using hq)
        exact ⟨.inr hl, hend⟩
    · rcases he with rfl | he
      · exact ⟨region, info, a, hr, hop, hbefore⟩
      · exact h.planned e he
  | await hc | settle _ hc => exact h.move hc
  | finish hc | resume _ hc => exact h.finish hc

end Orderly

/-- An item that has to do with nested runs of a loop. -/
def Item.Turns : Item α ι → Prop
  | .iterate _ | .iterated _ => True
  | .start _ _ | .visit _ _ | .submit _ _ | .release _ | .call _ | .returned _ | .settle _ _
  | .settleRun _ _ | .effect _ => False

theorem Item.IsPlain.not_turns {x : Item α ι} (h : x.IsPlain) : ¬ x.Turns := fun ht => by
  cases x <;> simp only [Item.Turns] at ht <;> cases h.token

namespace Crew

def requests (s : Crew α σ ι) : List (Effect ι) :=
  s.threads.flatMap (fun items => items.filterMap Item.effect?) ++
    s.world.kept.filterMap Task.effect?

def scene (s : Crew α σ ι) : Scene σ ι where
  device := s.world.device
  requests := s.requests
  progress := fun c => (s.world.call? c).map Call.progress
  launched := { c | .launched c ∈ s.log }
  ended := { y | .ended y.1 y.2 ∈ s.log }

variable {Q : RunKey → Program α → Prop} {s : Crew α σ ι} {i : Nat} {item : Item α ι}
  {rest items : List (Item α ι)} {tasks : List (Task ι)} {w : World α σ ι}
  {run : RunKey → Option (Run α)} {call : CallKey → Option Call} {c : CallKey} {o : Outcome}

/-- The runs of a crew are those of `Q`, and nothing on its threads or in flight has to do with
loops. -/
structure Straight (Q : RunKey → Program α → Prop) (s : Crew α σ ι) : Prop where
  runs : ∀ r region, s.HasRegion r region → Q r region
  turnless : ∀ items ∈ s.threads, ∀ item ∈ items, ¬ item.Turns
  loop : ∀ c y, s.world.call? c = some y → y.loop = none

/-- Every run of `Q` is an outermost one, of leaf operations. -/
structure IsPlan (Q : RunKey → Program α → Prop) : Prop where
  scope : ∀ r region, Q r region → r.scope = []
  straight : ∀ r region, Q r region → Region.IsStraight region

/-- A run that has a region keeps it. -/
theorem HasRegion.after {r : RunKey} {region : Program α} (h : s.HasRegion r region)
    (hi : s.threads[i]? = some (item :: rest))
    (hb : (s.seenBy rest).Became w items tasks run call) : (s.after i item w).HasRegion r region := by
  rcases h with hmem | ⟨agenda, hagenda, hmem⟩
  · exact .inl (List.mem_append_left _ hmem)
  · obtain ⟨k, hk, rfl⟩ := List.getElem_of_mem hagenda
    by_cases hki : k = i
    · subst hki
      have hthread : s.threads[k] = item :: rest := by
        rw [List.getElem?_eq_getElem hk] at hi
        exact Option.some.inj hi
      rw [hthread] at hmem
      rcases List.mem_cons.1 hmem with rfl | hmem
      · exact .inl (List.mem_append_right _ (List.mem_singleton_self _))
      · refine .inr ⟨w.agenda, List.mem_set hk _, ?_⟩
        rw [hb.agenda]
        exact List.mem_append_right _ hmem
    · refine .inr ⟨s.threads[k], ?_, hmem⟩
      exact List.mem_of_getElem? (i := k) (by simp [Crew.after, Ne.symm hki, hk])

/-- What is asked for once a thread has done its first item and has put others in front. -/
theorem requests_after (hi : s.threads[i]? = some (item :: rest))
    (hagenda : w.agenda = items ++ rest) :
    ∃ others, s.requests.Perm (item.effect?.toList ++ others ++ s.world.kept.filterMap Task.effect?) ∧
      (s.after i item w).requests.Perm
        (items.filterMap Item.effect? ++ others ++ w.kept.filterMap Task.effect?) := by
  obtain ⟨others, hold, hnew⟩ :=
    exists_flatMap_perm (fun items : List (Item α ι) => items.filterMap Item.effect?) hi
  have hhead : (item :: rest).filterMap Item.effect? =
      item.effect?.toList ++ rest.filterMap Item.effect? := by
    rw [List.filterMap_cons]
    cases item.effect? <;> rfl
  refine ⟨rest.filterMap Item.effect? ++ others, ?_, ?_⟩
  · refine List.Perm.append_right _ (hold.trans (.of_eq ?_))
    rw [hhead, List.append_assoc]
  · refine List.Perm.append_right _ ((hnew w.agenda).trans (.of_eq ?_))
    rw [hagenda, List.filterMap_append, List.append_assoc]

theorem requests_inner (hi : s.threads[i]? = some (item :: rest))
    (h : (s.seenBy rest).Inner w) :
    s.requests.Perm (item.effect?.toList ++ (s.after i item w).requests) := by
  obtain ⟨items, hagenda, hnone⟩ := h.agenda
  obtain ⟨others, hold, hnew⟩ := requests_after hi hagenda
  rw [List.filterMap_eq_nil_iff.2 hnone, List.nil_append] at hnew
  refine hold.trans ?_
  rw [List.append_assoc]
  exact (((h.kept.append_left others).symm.trans hnew.symm)).append_left _

variable [Leaf α] {b : Backend α σ ι}

theorem Straight.leaf_of_operation (h : s.Straight Q) (hQ : IsPlan Q) (hs : s.Sound)
    {op : Operation α} (hop : s.world.operation? c = some op) :
    ∃ region info a, (c.run, region) ∈ s.begun ∧ Q c.run region ∧
      region.ops[c.node]? = some op ∧ op = .leaf info a := by
  obtain ⟨region, hmem, hnode⟩ := hs.belongs hop
  have hq := h.runs _ _ (.inl hmem)
  obtain ⟨info, a, hleaf⟩ := hQ.straight _ _ hq _ (List.mem_of_getElem? hnode)
  exact ⟨region, info, a, hmem, hq, hnode, hleaf⟩

theorem Straight.act (h : s.Straight Q) (hQ : IsPlan Q) (hs : s.Sound)
    (hi : s.threads[i]? = some (item :: rest)) (hw : (s.seenBy (item :: rest)).step? b = some w) :
    (s.after i item w).Straight Q := by
  obtain ⟨items, tasks, run, call, hb, hm⟩ := World.step_cases rfl hw fun r region hr =>
    hs.known r (hasBegun_of_head (hr ▸ hi))
  have hleaf : ∀ {c op}, s.world.operation? c = some op → ∃ info a, op = .leaf info a :=
    fun hop => by
      obtain ⟨region, info, a, -, -, -, hop'⟩ := h.leaf_of_operation hQ hs hop
      exact ⟨info, a, hop'⟩
  have hnew : (∀ x ∈ items, ¬ x.Turns) ∧ ∀ c y, call c = some y → y.loop = none := by
    have hset : ∀ {c : CallKey} {y : Call}, y.loop = none →
        ∀ d z, Function.update s.world.call? c (some y) d = some z → z.loop = none :=
      fun {c y} hy d z hz => by
        rw [Function.update_apply] at hz
        split at hz
        · obtain rfl := Option.some.inj hz
          exact hy
        · exact h.loop d z hz
    have hno : ∀ {c : CallKey} {p : Progress} {l : LoopState},
        s.world.call? c = some ⟨p, some l⟩ → False := fun hc => by
      have := h.loop _ _ hc
      cases this
    cases hm with
    | spares _ hitems => exact ⟨fun x hx => (hitems x hx).not_turns, h.loop⟩
    | uncalled | unreturned | void | turnless | loopless | late => exact ⟨by simp, h.loop⟩
    | @called c op opening l hop hopens =>
      obtain ⟨info, a, rfl⟩ := hleaf hop
      have hl : l = none ∧ ∀ x ∈ opening ++ [Item.returned c], ¬ x.Turns := by
        cases hopens with
        | leaf =>
          refine ⟨rfl, fun x hx ht => ?_⟩
          simp only [List.mem_append, List.mem_map, List.mem_singleton] at hx
          rcases hx with ⟨e, -, rfl⟩ | rfl <;> exact ht
        | panicked => exact ⟨rfl, by simp [Item.Turns]⟩
      exact ⟨hl.2, hset hl.1⟩
    | awaited hc | settled _ hc =>
      have hl := h.loop _ _ hc
      exact ⟨by simp, hset hl⟩
    | ended _ hitems =>
      refine ⟨fun x hx => (hitems x hx).not_turns, fun d z hz => ?_⟩
      rw [Function.update_apply] at hz
      split at hz
      · cases hz
      · exact h.loop d z hz
    | turns hop =>
      obtain ⟨info, a, hop'⟩ := hleaf hop
      cases hop'
    | advances hc | waits hc | noted _ hc | goesOn _ hc => exact (hno hc).elim
    | passed => exact ⟨by simp [Item.Turns], h.loop⟩
  refine ⟨fun r region hr => ?_, fun agenda hagenda x hx => ?_, fun c y hy => ?_⟩
  · rcases hr.of_after hi hb with hold | hstart
    · exact h.runs r region hold
    · obtain ⟨c, n, op, -, hop, hmem⟩ := hm.start_mem hstart
      obtain ⟨info, a, rfl⟩ := hleaf hop
      cases hmem
  · rcases List.mem_or_eq_of_mem_set hagenda with hagenda | rfl
    · exact h.turnless agenda hagenda x hx
    · rw [hb.agenda] at hx
      rcases List.mem_append.1 hx with hx | hx
      · exact hnew.1 x hx
      · exact h.turnless _ (mem_threads hi) x (List.mem_cons_of_mem _ hx)
  · have hcall : (s.after i item w).world.call? = call := hb.call
    rw [hcall] at hy
    exact hnew.2 c y hy

omit [Leaf α] in
theorem Straight.take (h : s.Straight Q) {k : Nat} {q' : Runner (Task ι)} {t : Task ι} :
    (({ s with world := s.world.setRunner k q' } : Crew α σ ι).spawn (World.tasks t)).Straight Q := by
  have htasks : ∀ x ∈ (World.tasks t : List (Item α ι)),
      ¬ x.Turns ∧ ∀ r region, x ≠ .start r region := by
    cases t <;> simp [World.tasks, Item.Turns]
  refine ⟨fun r region hr => ?_, fun items hitems x hx => ?_, h.loop⟩
  · refine h.runs r region ?_
    rcases hr with hr | ⟨items, hitems, hmem⟩
    · exact .inl hr
    · rcases List.mem_append.1 hitems with hitems | hitems
      · exact .inr ⟨items, hitems, hmem⟩
      · obtain rfl := List.mem_singleton.1 hitems
        exact absurd rfl ((htasks _ hmem).2 r region)
  · rcases List.mem_append.1 hitems with hitems | hitems
    · exact h.turnless items hitems x hx
    · obtain rfl := List.mem_singleton.1 hitems
      exact (htasks x hx).1

omit [Leaf α] in
theorem scene_after {x : Scene σ ι} (hdevice : w.device = x.device)
    (hrequests : (s.after i item w).requests = x.requests)
    (hprogress : ∀ c, (w.call? c).map Call.progress = x.progress c)
    (hlaunched : ∀ c, .launched c ∈ s.log ∨ .launched c ∈ s.world.noted item ↔ c ∈ x.launched)
    (hended : ∀ c o, .ended c o ∈ s.log ∨ .ended c o ∈ s.world.noted item ↔ (c, o) ∈ x.ended) :
    (s.after i item w).scene = x := by
  obtain ⟨device, requests, progress, launched, ended⟩ := x
  simp only at hdevice hrequests hprogress hlaunched hended
  rw [scene, Scene.mk.injEq]
  refine ⟨hdevice, hrequests, funext hprogress, Set.ext fun c => ?_, Set.ext fun y => ?_⟩
  · rw [← hlaunched]
    simp [after]
  · rw [← hended]
    simp [after]

theorem scene_idle (hi : s.threads[i]? = some (item :: rest)) (h : (s.seenBy rest).Inner w)
    (hitem : item.effect? = none) (hcall : w.call? = s.world.call?)
    (hlaunched : ∀ c, .launched c ∉ s.world.noted item)
    (hended : ∀ c o, .ended c o ∉ s.world.noted item) :
    Scene.Step b Q s.scene (s.after i item w).scene := by
  have hp := requests_inner hi h
  rw [hitem] at hp
  have heq : (s.after i item w).scene =
      { s.scene with requests := (s.after i item w).requests } :=
    scene_after h.device rfl (fun c => by rw [hcall]; rfl) (fun c => by simp [hlaunched, scene])
      fun c o => by simp [hended, scene]
  rw [heq]
  exact .idle hp.symm

omit [Leaf α] in
theorem progress_update (s : Crew α σ ι) (c : CallKey) (y : Option Call) (d : CallKey) :
    (Function.update s.world.call? c y d).map Call.progress =
      Function.update s.scene.progress c (y.map Call.progress) d := by
  simp only [Function.update_apply]
  split <;> rfl

/-- The end of a call, by an item or by an effect. -/
theorem scene_settle (hi : s.threads[i]? = some (item :: rest)) (hitem : item.Settles c o) :
    Scene.Step b Q s.scene (s.after i item ((s.seenBy rest).settle c o)).scene := by
  have hp := requests_inner hi ((s.seenBy rest).inner_settle c o)
  have heffect : item.effect? = some (.settle c o) := by rcases hitem with rfl | rfl <;> rfl
  have hsettle : s.world.noted item = s.world.noted (.settle c o) := by
    rcases hitem with rfl | rfl <;> rfl
  rw [heffect] at hp
  have hdevice := ((s.seenBy rest).inner_settle c o).device
  have hlaunched : ∀ d, .launched d ∉ s.world.noted item := fun d => by
    rw [hsettle, World.noted]
    split <;> simp
  have hview : (s.seenBy rest).call? = s.world.call? := rfl
  -- what is noted of the end of a call, and how its progress changes, follows from its progress
  cases hc : s.world.call? c with
  | none =>
    have hnoted : s.world.noted item = [] := by rw [hsettle, World.noted, hc]
    have hsame : (s.seenBy rest).settle c o = s.seenBy rest := by rw [World.settle, hview, hc]
    have heq : (s.after i item ((s.seenBy rest).settle c o)).scene = { s.scene with
        requests := (s.after i item ((s.seenBy rest).settle c o)).requests } :=
      scene_after hdevice rfl (fun d => by rw [hsame]; rfl) (fun d => by simp [hlaunched, scene])
        fun d o' => by simp [hnoted, scene]
    rw [heq]
    exact .void hp fun q hq => by simp [scene, hc] at hq
  | some y =>
    obtain ⟨p, l⟩ := y
    have hprogress : s.scene.progress c = some p := by simp [scene, hc]
    cases p with
    | entered =>
      have hnoted : s.world.noted item = [] := by rw [hsettle, World.noted, hc]
      have hset : (s.seenBy rest).settle c o = (s.seenBy rest).setCall c ⟨.settled o, l⟩ := by
        rw [World.settle, hview, hc]
      have hcall : ((s.seenBy rest).settle c o).call? =
          Function.update s.world.call? c (some ⟨.settled o, l⟩) := by
        rw [hset]
        exact ((World.Became.refl (s.seenBy rest)).setCall (World.knows_of_call? hc) _).call
      have heq : (s.after i item ((s.seenBy rest).settle c o)).scene = { s.scene with
          requests := (s.after i item ((s.seenBy rest).settle c o)).requests
          progress := Function.update s.scene.progress c (some (.settled o)) } :=
        scene_after hdevice rfl (fun d => by rw [hcall]; exact progress_update s c _ d)
          (fun d => by simp [hlaunched, scene]) fun d o' => by simp [hnoted, scene]
      rw [heq]
      exact .settle hp hprogress
    | awaited =>
      have hnoted : s.world.noted item = [.ended c o] := by rw [hsettle, World.noted, hc]
      have hset : (s.seenBy rest).settle c o = (s.seenBy rest).finish c o false := by
        rw [World.settle, hview, hc]
      obtain ⟨items, run, hb, -⟩ := World.finish_cases (s.seenBy rest) c o false
      have heq : (s.after i item ((s.seenBy rest).settle c o)).scene = { s.scene with
          requests := (s.after i item ((s.seenBy rest).settle c o)).requests
          progress := Function.update s.scene.progress c none
          ended := insert (c, o) s.scene.ended } :=
        scene_after hdevice rfl
          (fun d => by rw [hset, hb.call]; exact progress_update s c _ d)
          (fun d => by simp [hlaunched, scene])
          fun d o' => by simp [hnoted, scene, or_comm]
      rw [heq]
      exact .resume hp hprogress
    | settled o' =>
      have hnoted : s.world.noted item = [] := by rw [hsettle, World.noted, hc]
      have hsame : (s.seenBy rest).settle c o = s.seenBy rest := by rw [World.settle, hview, hc]
      have heq : (s.after i item ((s.seenBy rest).settle c o)).scene = { s.scene with
          requests := (s.after i item ((s.seenBy rest).settle c o)).requests } :=
        scene_after hdevice rfl (fun d => by rw [hsame]; rfl) (fun d => by simp [hlaunched, scene])
          fun d o' => by simp [hnoted, scene]
      rw [heq]
      refine .void hp fun q hq => ⟨o', ?_⟩
      rw [hprogress] at hq
      exact (Option.some.inj hq).symm

/-- The start of a call has returned. -/
theorem scene_returned (hi : s.threads[i]? = some (.returned c :: rest)) :
    Scene.Step b Q s.scene (s.after i (.returned c) ((s.seenBy rest).returned c)).scene := by
  have hp := requests_inner hi ((s.seenBy rest).inner_returned c)
  have hdevice := ((s.seenBy rest).inner_returned c).device
  have hview : (s.seenBy rest).call? = s.world.call? := rfl
  have hlaunched : ∀ d, .launched d ∉ s.world.noted (.returned c : Item α ι) := fun d => by
    simp only [World.noted]
    split <;> simp
  cases hc : s.world.call? c with
  | none =>
    have hsame : (s.seenBy rest).returned c = s.seenBy rest := by
      rw [World.returned, hview, hc]
    exact scene_idle hi ((s.seenBy rest).inner_returned c) rfl (by rw [hsame]; rfl) hlaunched
      fun d o => by simp [World.noted, hc]
  | some y =>
    obtain ⟨p, l⟩ := y
    have hprogress : s.scene.progress c = some p := by simp [scene, hc]
    by_cases hsettled : ∃ o, p = .settled o
    · obtain ⟨o, rfl⟩ := hsettled
      have hfinish : (s.seenBy rest).returned c = (s.seenBy rest).finish c o true := by
        rw [World.returned, hview, hc]
      obtain ⟨items, run, hb, -⟩ := World.finish_cases (s.seenBy rest) c o true
      have heq : (s.after i (.returned c) ((s.seenBy rest).returned c)).scene = { s.scene with
          requests := (s.after i (.returned c) ((s.seenBy rest).returned c)).requests
          progress := Function.update s.scene.progress c none
          ended := insert (c, o) s.scene.ended } :=
        scene_after hdevice rfl (fun d => by rw [hfinish, hb.call]; exact progress_update s c _ d)
          (fun d => by simp [hlaunched, scene])
          fun d o' => by simp [World.noted, hc, scene, or_comm]
      rw [heq]
      exact .finish hprogress hp.symm
    · have hnot : ∀ o, p ≠ .settled o := fun o ho => hsettled ⟨o, ho⟩
      obtain ⟨run, hb⟩ := World.hold_cases (s.seenBy rest) c.run
      have hcall : ((s.seenBy rest).returned c).call? =
          Function.update s.world.call? c (some ⟨.awaited, l⟩) := by
        rw [World.returned_unsettled (w := s.seenBy rest) hc hnot]
        exact (hb.setCall (World.knows_of_call? hc) _).call
      have heq : (s.after i (.returned c) ((s.seenBy rest).returned c)).scene = { s.scene with
          requests := (s.after i (.returned c) ((s.seenBy rest).returned c)).requests
          progress := Function.update s.scene.progress c (some .awaited) } :=
        scene_after hdevice rfl (fun d => by rw [hcall]; exact progress_update s c _ d)
          (fun d => by simp [hlaunched, scene]) fun d o' => by
            cases p with
            | settled o => exact absurd rfl (hnot o)
            | entered | awaited => simp [World.noted, hc, scene]
      rw [heq]
      exact .await hprogress hnot hp.symm

theorem Sound.not_launched_of_call (hs : s.Sound) (hi : s.threads[i]? = some (.call c :: rest)) :
    .launched c ∉ s.log := by
  have hcall : 0 < (s.view c.run).marks c.node .call := count_pos_of_head hi rfl
  have hmark : (s.view c.run).marks c.node .launched = 0 := by
    rcases (hs.run c.run).not_idle hi rfl with
      ⟨region, st, fin, h⟩ | ⟨region, st, t, holders, fin, h, -⟩
    · rw [(h.shown c.node).fixed .launched rfl, (h.shown c.node).eq_called hcall]
      rfl
    · rw [(h.shown c.node).fixed .launched rfl, (h.shown c.node).eq_called hcall]
      rfl
  rw [marks_launched] at hmark
  exact List.count_eq_zero.1 hmark

theorem Straight.scene_call (h : s.Straight Q) (hQ : IsPlan Q) (hs : s.Sound)
    (hi : s.threads[i]? = some (.call c :: rest))
    (hs' : (s.after i (.call c) ((s.seenBy rest).call b c)).Sound) :
    Scene.Step b Q s.scene (s.after i (.call c) ((s.seenBy rest).call b c)).scene := by
  cases hop : s.world.operation? c with
  | none =>
    have hsame : (s.seenBy rest).call b c = s.seenBy rest := by
      rw [World.call, show (s.seenBy rest).operation? c = none from hop]
    refine scene_idle hi (by rw [hsame]; exact .refl _) rfl (by rw [hsame]; rfl) (fun d => ?_)
      fun d o => ?_
    · simp [World.noted, hop]
    · simp [World.noted, hop]
  | some op =>
    obtain ⟨region, info, a, hmem, hq, hnode, rfl⟩ := h.leaf_of_operation hQ hs hop
    have hknows : (s.seenBy rest).Knows c.run := by
      obtain ⟨x, hx, -⟩ := Option.bind_eq_some_iff.1 hop
      exact World.knows_of_run? hx
    obtain ⟨opening, l, hopens, hb⟩ :=
      World.call_cases (w := s.seenBy rest) (b := b) hknows hop
    rcases hlaunch : b.launch c info a s.world.device with ⟨device, r⟩
    have hitems : (opening ++ [Item.returned c]).filterMap Item.effect? = Backend.opening c r := by
      have hr : (b.launch c info a (s.seenBy rest).device).2 = r := congrArg Prod.snd hlaunch
      cases hopens with
      | leaf hl =>
        obtain rfl := hl.symm.trans hr
        simp [Backend.opening, Item.effect?, List.filterMap_append, List.filterMap_map,
          Function.comp_def]
      | panicked hl =>
        obtain rfl := hl.symm.trans hr
        simp [Backend.opening, Item.effect?]
    have hdevice : ((s.seenBy rest).call b c).device = device := by
      rw [World.device_call_leaf (w := s.seenBy rest) hop]
      exact congrArg Prod.fst hlaunch
    obtain ⟨others, hold, hnew⟩ := requests_after hi hb.agenda
    rw [hitems] at hnew
    have hkept : (((s.seenBy rest).call b c).kept.filterMap Task.effect?).Perm
        (s.world.kept.filterMap Task.effect?) := hb.kept.filterMap _
    have hp : (s.after i (.call c) ((s.seenBy rest).call b c)).requests.Perm
        (Backend.opening c r ++ s.requests) := by
      refine hnew.trans ?_
      rw [List.append_assoc]
      exact ((hkept.append_left others).trans hold.symm).append_left _
    have heq : (s.after i (.call c) ((s.seenBy rest).call b c)).scene =
        ⟨device, (s.after i (.call c) ((s.seenBy rest).call b c)).requests,
          Function.update s.scene.progress c (some .entered), insert c s.scene.launched,
          s.scene.ended⟩ :=
      scene_after hdevice rfl (fun d => by rw [hb.call]; exact progress_update s c _ d)
        (fun d => by simp [World.noted, hop, scene, or_comm])
        fun d o => by simp [World.noted, hop, scene]
    rw [heq]
    refine .launch hq hnode (hs.not_launched_of_call hi) ?_ (fun j hj hc => ?_) hlaunch hp
    · simp [scene, (hs.call?_of_call hi).1]
    · have hlog : .launched ⟨c.run, c.node⟩ ∈
          (s.after i (.call c) ((s.seenBy rest).call b c)).log :=
        List.mem_append_right _ (by simp [World.noted, hop])
      have hended := ((hs'.run c.run).ended_of_launched (List.mem_append_left _ hmem) hj hc hlog).1
      simpa [after, World.noted, hop, scene] using hended

theorem Sound.begun_of_settleRun (hs : s.Sound) {r : RunKey}
    (hi : s.threads[i]? = some (.settleRun r o :: rest)) : ∃ region, (r, region) ∈ s.begun := by
  have hover : 0 < (s.view r).count (.closing o) := count_pos_of_head hi rfl
  simp only [mem_begun_iff]
  cases hs.run r with
  | idle hv => rw [hv.count _ (by simp)] at hover; cases hover
  | empty hv => exact ⟨_, by rw [hv.regions]; exact List.mem_singleton_self _⟩
  | ordered hv => exact ⟨_, by rw [hv.regions]; exact List.mem_singleton_self _⟩
  | scheduled hv => exact ⟨_, by rw [hv.regions]; exact List.mem_singleton_self _⟩

omit [Leaf α] in
/-- The backend is asked to do some work, or gives it up. -/
theorem requests_carryOut {e : Effect ι} (hi : s.threads[i]? = some (.effect e :: rest))
    (effects more : List (Effect ι)) (hagenda : w.agenda = effects.map .effect ++ rest)
    (hkept : (w.kept.filterMap Task.effect?).Perm (more ++ s.world.kept.filterMap Task.effect?)) :
    ∃ others, s.requests.Perm (e :: others) ∧
      (s.after i (.effect e) w).requests.Perm (effects ++ more ++ others) := by
  obtain ⟨others, hold, hnew⟩ := requests_after hi hagenda
  have heffects : (effects.map (Item.effect : Effect ι → Item α ι)).filterMap Item.effect? =
      effects := by
    simp [List.filterMap_map, Function.comp_def, Item.effect?]
  rw [heffects] at hnew
  refine ⟨others ++ s.world.kept.filterMap Task.effect?, by simpa [Item.effect?] using hold, ?_⟩
  refine hnew.trans ?_
  simp only [List.append_assoc]
  refine List.Perm.append_left _ ((hkept.append_left others).trans ?_)
  rw [← List.append_assoc, ← List.append_assoc]
  exact List.perm_append_comm.append_right _

theorem scene_effect {e : Effect ι} (hi : s.threads[i]? = some (.effect e :: rest)) :
    Scene.Step b Q s.scene (s.after i (.effect e) ((s.seenBy rest).carryOut b e)).scene := by
  cases e with
  | settle c o => exact scene_settle hi (.inr rfl)
  | work x =>
    obtain ⟨others, hold, hnew⟩ := requests_carryOut
      (w := (s.seenBy rest).carryOut b (.work x)) hi _ [] rfl (.refl _)
    rw [List.append_nil] at hnew
    have heq : (s.after i (.effect (.work x)) ((s.seenBy rest).carryOut b (.work x))).scene =
        { s.scene with
          device := (b.perform x s.scene.device).1
          requests :=
            (s.after i (.effect (.work x)) ((s.seenBy rest).carryOut b (.work x))).requests } :=
      scene_after rfl rfl (fun d => rfl) (fun d => by simp [World.noted, scene])
        fun d o => by simp [World.noted, scene]
    rw [heq]
    exact .work hold hnew
  | submit k x =>
    have hnext : ∀ (w : World α σ ι) (device : σ), w.device = device → w.call? = s.world.call? →
        (s.after i (.effect (.submit k x)) w).scene = { s.scene with
          device
          requests := (s.after i (.effect (.submit k x)) w).requests } := fun _ _ hdevice hcall =>
      scene_after hdevice rfl (fun d => by rw [hcall]; rfl) (fun d => by simp [World.noted, scene])
        fun d o => by simp [World.noted, scene]
    cases hq : (s.seenBy rest).offer k (.work x) with
    | now =>
      have heq : (s.seenBy rest).carryOut b (.submit k x) =
          (s.seenBy rest).push (World.tasks (.work x)) := by rw [World.carryOut, hq]
      obtain ⟨others, hold, hnew⟩ := requests_carryOut
        (w := (s.seenBy rest).push (World.tasks (.work x))) hi [.work x] [] rfl (.refl _)
      rw [heq, hnext ((s.seenBy rest).push (World.tasks (.work x))) _ rfl rfl]
      exact .submit hold hnew
    | kept q' =>
      have heq : (s.seenBy rest).carryOut b (.submit k x) = (s.seenBy rest).setRunner k q' := by
        rw [World.carryOut, hq]
      have hkept : ((s.seenBy rest).setRunner k q').kept.Perm (.work x :: s.world.kept) := by
        simp only [World.offer] at hq
        split at hq
        case h_1 q hk => exact ((World.Became.refl (s.seenBy rest)).keep hk hq).kept
        case h_2 => cases hq
      obtain ⟨others, hold, hnew⟩ := requests_carryOut
        (w := (s.seenBy rest).setRunner k q') hi [] [.work x] rfl (hkept.filterMap Task.effect?)
      rw [heq, hnext ((s.seenBy rest).setRunner k q') _ rfl rfl]
      exact .submit hold hnew
    | dropped =>
      obtain ⟨w, hw⟩ : ∃ w, (s.seenBy rest).carryOut b (.submit k x) = w := ⟨_, rfl⟩
      have hlose : w = ({ s.seenBy rest with device := (b.discard x s.world.device).1 } :
          World α σ ι).push ((b.discard x s.world.device).2.map .effect) := by
        rw [← hw, World.carryOut, hq]
        rfl
      obtain ⟨others, hold, hnew⟩ := requests_carryOut (w := w) hi _ []
        (by rw [hlose]; rfl) (by rw [hlose]; exact .refl _)
      rw [List.append_nil] at hnew
      rw [hw, hnext w (b.discard x s.world.device).1 (by rw [hlose]; rfl) (by rw [hlose]; rfl)]
      exact .lose hold hnew

/-- A thread does its first item. -/
theorem Straight.scene_act (h : s.Straight Q) (hQ : IsPlan Q) (hs : s.Sound)
    (hi : s.threads[i]? = some (item :: rest)) (hw : (s.seenBy (item :: rest)).step? b = some w) :
    Scene.Step b Q s.scene (s.after i item w).scene := by
  have hs' := hs.act b hi hw
  cases item <;> obtain rfl := Option.some.inj hw
  case start r region =>
    obtain ⟨items, run, hb, -⟩ :=
      World.started_cases (s.seenBy rest) region (hs.known r (hasBegun_of_head hi))
    exact scene_idle hi ((s.seenBy rest).inner_start r region) rfl hb.call (by simp [World.noted])
      (by simp [World.noted])
  case visit r node =>
    obtain ⟨items, run, hb, -⟩ := World.visited_cases (s.seenBy rest) r node
    refine scene_idle hi ((s.seenBy rest).inner_visit r node) rfl hb.call (fun c => ?_) fun c o => ?_
    all_goals
      simp only [World.noted]
      repeat' split
      all_goals simp
  case submit r node =>
    obtain ⟨items, tasks, run, hb, -⟩ := World.submitted_cases (s.seenBy rest) r node
    refine scene_idle hi ((s.seenBy rest).inner_submit r node) rfl hb.call (fun c => ?_)
      fun c o => ?_
    all_goals
      simp only [World.noted]
      split <;> simp
  case release r =>
    obtain ⟨items, run, hb, -⟩ := World.released_cases (s.seenBy rest) r
    exact scene_idle hi ((s.seenBy rest).inner_release r) rfl hb.call (by simp [World.noted])
      (by simp [World.noted])
  case call c => exact h.scene_call hQ hs hi hs'
  case returned c => exact scene_returned hi
  case settle c o => exact scene_settle hi (.inl rfl)
  case settleRun r o =>
    obtain ⟨region, hmem⟩ := hs.begun_of_settleRun hi
    have hr := RunKey.caller?_eq_none.2 (hQ.scope _ _ (h.runs _ _ (.inl hmem)))
    exact scene_idle hi ((s.seenBy rest).inner_settleRun b hr o) rfl
      (World.settleRun_outermost hr o).call (by simp [World.noted]) (by simp [World.noted])
  case iterate c | iterated c =>
    exact absurd trivial (h.turnless _ (mem_threads hi) _ List.mem_cons_self)
  case effect e => exact scene_effect hi

theorem scene_take {k : Nat} {q q' : Runner (Task ι)} {t : Task ι}
    (hk : s.world.runners[k]? = some q) (hq : q.Gives t q') :
    Scene.Step b Q s.scene
      (({ s with world := s.world.setRunner k q' } : Crew α σ ι).spawn (World.tasks t)).scene := by
  have hkept := (World.kept_give hk hq).filterMap Task.effect?
  have htasks : ((World.tasks t : List (Item α ι)).filterMap Item.effect?) =
      [t].filterMap Task.effect? := by
    cases t <;> rfl
  refine .idle ?_
  simp only [requests, spawn, List.flatMap_append, List.flatMap_singleton, htasks]
  rw [List.append_assoc]
  refine List.Perm.append_left _ ?_
  rw [← List.filterMap_append]
  exact hkept.symm

end Crew

end OpFlow.Machine
