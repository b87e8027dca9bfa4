import OpFlow.Proofs.Machine.CallMoves
import OpFlow.Proofs.Machine.Log

/-!
What goes on inside a call that runs nested regions. It is at one stage at a time: a loop is to ask
for its next nested run, one nested run goes on, or the call is about to be settled; and all this is
over before the call is. The stage fixes the tokens that threads hold of the call and which of its
nested runs goes on.
-/
namespace OpFlow.Machine

variable {α σ ι : Type}

inductive Stage
  | quiet
  /-- A loop is to ask for its next nested run. -/
  | turn
  /-- A nested run goes on, and its call waits for it. -/
  | inside (number : Nat)
  /-- A nested run of a loop goes on whose start has not returned. -/
  | started (number : Nat)
  /-- A nested run of a loop has ended whose start has not returned. -/
  | closing (outcome : Outcome)
  /-- The call is about to be settled. -/
  | settling (outcome : Outcome)

namespace Stage

def nested? : Stage → Option Nat
  | inside n | started n => some n
  | quiet | turn | closing _ | settling _ => none

def weight : Stage → Token → Nat
  | turn, .iterate => 1
  | started _, .iterated | closing _, .iterated => 1
  | settling o, .settle o' => if o = o' then 1 else 0
  | _, _ => 0

section Weight

variable (k : Token) (n : Nat) (o : Outcome)

@[simp] theorem weight_quiet : quiet.weight k = 0 := by cases k <;> rfl

@[simp] theorem weight_turn : turn.weight k = if k = .iterate then 1 else 0 := by cases k <;> rfl

@[simp] theorem weight_inside : (inside n).weight k = 0 := by cases k <;> rfl

@[simp] theorem weight_started : (started n).weight k = if k = .iterated then 1 else 0 := by
  cases k <;> rfl

@[simp] theorem weight_closing : (closing o).weight k = if k = .iterated then 1 else 0 := by
  cases k <;> rfl

@[simp] theorem weight_settling : (settling o).weight k = if .settle o = k then 1 else 0 := by
  cases k with
  | settle o' => simp [weight]
  | _ => rfl

end Weight

/-- A call that may be at this stage. Only a call in flight that has not been settled is at any but
the quiet one. -/
def Fits : Stage → Option Call → Prop
  | quiet, _ => True
  | turn, some ⟨p, some _⟩ => ∀ o, p ≠ .settled o
  | inside _, some ⟨p, none⟩ => ∀ o, p ≠ .settled o
  | inside _, some ⟨p, some l⟩ => (∀ o, p ≠ .settled o) ∧ l.progress = .awaited
  | started _, some ⟨p, some l⟩ => (∀ o, p ≠ .settled o) ∧ l.progress = .entered
  | closing o, some ⟨p, some l⟩ => (∀ o, p ≠ .settled o) ∧ l.progress = .settled o
  | settling _, some ⟨p, _⟩ => ∀ o, p ≠ .settled o
  | _, _ => False

def next : List (Item α ι) → Stage
  | [.settle _ o] => settling o
  | [.iterate _] => turn
  | _ => quiet

theorem Fits.eq_quiet {x : Stage} (h : x.Fits none) : x = quiet := by
  cases x <;> first | rfl | cases h

theorem Fits.unsettled {x : Stage} {p : Progress} {l : Option LoopState} (h : x.Fits (some ⟨p, l⟩))
    (hx : x ≠ quiet) (o : Outcome) : p ≠ .settled o := by
  cases x <;> cases l <;> simp_all [Fits]

theorem Fits.exists_of_ne_quiet {x : Stage} {y : Option Call} (h : x.Fits y) (hx : x ≠ quiet) :
    ∃ p l, y = some ⟨p, l⟩ ∧ ∀ o, p ≠ .settled o := by
  cases y with
  | none => exact absurd h.eq_quiet hx
  | some y => exact ⟨y.progress, y.loop, rfl, h.unsettled hx⟩

theorem Fits.await {x : Stage} {p : Progress} {l : Option LoopState} (h : x.Fits (some ⟨p, l⟩)) :
    x.Fits (some ⟨.awaited, l⟩) := by
  cases x <;> cases l <;> simp_all [Fits]

theorem eq_turn {x : Stage} (h : 0 < x.weight .iterate) : x = turn := by
  cases x <;> simp_all

theorem eq_settling {x : Stage} {o : Outcome} (h : 0 < x.weight (.settle o)) : x = settling o := by
  cases x <;> simp_all
  split at h <;> simp_all

theorem eq_started_or_closing {x : Stage} (h : 0 < x.weight .iterated) :
    (∃ n, x = started n) ∨ ∃ o, x = closing o := by
  cases x <;> simp_all

theorem Fits.exists_loop {x : Stage} {y : Option Call} (h : x.Fits y)
    (hx : 0 < x.weight .iterated) : ∃ p l, y = some ⟨p, some l⟩ := by
  obtain ⟨p, l, rfl, -⟩ := h.exists_of_ne_quiet fun hq => by simp [hq] at hx
  cases l with
  | some l => exact ⟨p, l, rfl⟩
  | none => rcases eq_started_or_closing hx with ⟨n, rfl⟩ | ⟨o, rfl⟩ <;> cases h

theorem eq_of_nested? {x : Stage} {n : Nat} (h : x.nested? = some n) :
    x = inside n ∨ x = started n := by
  cases x <;> simp_all [nested?]

end Stage

/-- How the stage of a call changes with an item, in the world before. -/
inductive StageMove (b : Backend α σ ι) (w : World α σ ι) (c : CallKey) :
    Item α ι → Stage → Stage → Prop
  | same {item : Item α ι} {x : Stage} : StageMove b w c item x x
  | body {info : OpInfo} {body : Program α} (hop : w.operation? c = some (.call info body)) :
    StageMove b w c (.call c) .quiet (.inside 0)
  | branch {info : OpInfo} {index : Slice} {type : IndexType} {branches : List (Program α)}
      {branch : Program α} {bytes : Bytes}
      (hop : w.operation? c = some (.conditional info index type branches))
      (hread : b.read c.run.host index w.device = .ok bytes)
      (hb : branches[type.choose branches.length bytes]? = some branch) :
    StageMove b w c (.call c) .quiet (.inside 0)
  | unread {info : OpInfo} {index : Slice} {type : IndexType} {branches : List (Program α)}
      {e : Error} (hop : w.operation? c = some (.conditional info index type branches))
      (hread : b.read c.run.host index w.device = .error e) :
    StageMove b w c (.call c) .quiet (.settling (.error e))
  | loop {info : OpInfo} {predicate : Slice} {condition body : Program α} {trips : Option Nat}
      (hop : w.operation? c = some (.loop info predicate condition body trips)) :
    StageMove b w c (.call c) .quiet .turn
  | turned {info : OpInfo} {predicate : Slice} {condition body : Program α} {trips : Option Nat}
      {p : Progress} {l l' : LoopState} {items : List (Item α ι)} {x : Stage}
      (hop : w.operation? c = some (.loop info predicate condition body trips))
      (hc : w.call? c = some ⟨p, some l⟩) (h : World.Turns c condition body trips l items l')
      (hx : x = .settling (.ok ()) ∧ items = [.settle c (.ok ())] ∨
        x = .started l.started ∧ l'.started = l.started + 1) :
    StageMove b w c (.iterate c) .turn x
  /-- What is no loop has no turn. -/
  | lost (h : ∀ info predicate condition body trips,
      w.operation? c ≠ some (.loop info predicate condition body trips)) :
    StageMove b w c (.iterate c) .turn .quiet
  | waits {n : Nat} : StageMove b w c (.iterated c) (.started n) (.inside n)
  | advances {p : Progress} {l l' : LoopState} {o : Outcome} {items : List (Item α ι)}
      (hc : w.call? c = some ⟨p, some l⟩) (h : World.Advances b w.device c (w.operation? c) l o items l') :
    StageMove b w c (.iterated c) (.closing o) (.next items)
  | noted {n : Nat} {o : Outcome} :
    StageMove b w c (.settleRun (c.nested n) o) (.started n) (.closing o)
  | goesOn {n : Nat} {p : Progress} {l l' : LoopState} {o : Outcome} {items : List (Item α ι)}
      (hc : w.call? c = some ⟨p, some l⟩) (h : World.Advances b w.device c (w.operation? c) l o items l') :
    StageMove b w c (.settleRun (c.nested n) o) (.inside n) (.next items)
  | passed {n : Nat} {p : Progress} {o : Outcome} (hc : w.call? c = some ⟨p, none⟩) :
    StageMove b w c (.settleRun (c.nested n) o) (.inside n) (.settling o)
  | settled {o : Outcome} : StageMove b w c (.settle c o) (.settling o) .quiet

namespace Crew

def tokens (s : Crew α σ ι) : List (CallKey × Token) :=
  s.threads.flatMap fun items => items.filterMap Item.token

/-- An operation is what a call is a call of. -/
def Belongs (s : Crew α σ ι) (c : CallKey) (op : Operation α) : Prop :=
  ∃ region, (c.run, region) ∈ s.begun ∧ region.ops[c.node]? = some op

def IsLeaf (s : Crew α σ ι) (c : CallKey) : Prop := ∃ info a, s.Belongs c (.leaf info a)

/-- A run has begun, or is about to, and has not been resolved. -/
def Pending (s : Crew α σ ι) (r : RunKey) : Prop :=
  s.HasBegun r ∧ ∀ o, .resolved r o ∉ s.log

/-- A call is at a stage. Leaf operations run nothing; when they are to be settled is the matter of
the backend. -/
structure Shows (s : Crew α σ ι) (c : CallKey) (x : Stage) : Prop where
  fits : x.Fits (s.world.call? c)
  iterate : s.tokens.count (c, .iterate) = x.weight .iterate
  iterated : s.tokens.count (c, .iterated) = x.weight .iterated
  settle : ¬ s.IsLeaf c → ∀ o, s.tokens.count (c, .settle o) = x.weight (.settle o)
  nested : ∀ n, s.Pending (c.nested n) ↔ x.nested? = some n
  leaf : s.IsLeaf c → x = .quiet

variable {s : Crew α σ ι} {r : RunKey} {i : Nat} {item : Item α ι} {rest items : List (Item α ι)}
  {tasks : List (Task ι)} {w : World α σ ι} {run : RunKey → Option (Run α)}
  {call : CallKey → Option Call} {c : CallKey} {x x' : Stage}

theorem count_tokens_after (hi : s.threads[i]? = some (item :: rest))
    (h : (s.seenBy rest).Became w items tasks run call) (y : CallKey × Token) :
    (s.after i item w).tokens.count y + item.token.toList.count y =
      s.tokens.count y + (items.filterMap Item.token).count y := by
  have hthreads := count_flatMap_set (fun items => items.filterMap Item.token) hi w.agenda y
  have hitem : ((item :: rest).filterMap Item.token).count y =
      item.token.toList.count y + (rest.filterMap Item.token).count y := by
    rw [List.filterMap_cons]
    cases item.token <;> simp [List.count_cons]
    omega
  have hagenda : (w.agenda.filterMap Item.token).count y =
      (items.filterMap Item.token).count y + (rest.filterMap Item.token).count y := by
    rw [h.agenda, List.filterMap_append, List.count_append]
    rfl
  simp only [tokens, after] at hthreads ⊢
  omega

/-- Runs that have begun stay so. -/
theorem hasBegun_mono (hi : s.threads[i]? = some (item :: rest))
    (h : (s.seenBy rest).Became w items tasks run call) (hr : s.HasBegun r) :
    (s.after i item w).HasBegun r := by
  rw [hasBegun_iff, ← List.count_pos_iff, ← List.count_pos_iff] at hr ⊢
  have h1 := count_signs_after hi h (r, .start)
  have h2 := count_signs_after hi h (r, .started)
  have hnone : item.sign.toList.count (r, .started) = 0 := by
    cases item <;> simp [Item.sign]
  by_cases hstart : item.sign = some (r, .start)
  · obtain ⟨region, rfl⟩ := sign_start_iff.1 hstart
    have : 0 < (signsIn items tasks (s.world.noted (.start r region))).count (r, .started) := by
      refine List.count_pos_iff.2 (List.mem_append_right _ ?_)
      simp [World.noted, Event.sign]
    omega
  · have : item.sign.toList.count (r, .start) = 0 := by
      rw [List.count_eq_zero]
      simpa [eq_comm] using hstart
    omega

theorem hasBegun_of_start (h : (s.seenBy rest).Became w items tasks run call)
    {region : Program α} (hlt : i < s.threads.length) (hmem : .start r region ∈ items) :
    (s.after i item w).HasBegun r := by
  refine hasBegun_iff.2 (.inl ?_)
  simp only [signs, List.mem_append, List.mem_flatMap]
  refine .inl (.inl ⟨w.agenda, ?_, ?_⟩)
  · exact List.mem_set hlt _
  · rw [h.agenda]
    exact List.mem_filterMap.2 ⟨_, List.mem_append_left _ hmem, rfl⟩

variable [Leaf α]

theorem Sound.not_resolved (hs : s.Sound) (hr : ¬ s.HasBegun r) (o : Outcome) :
    .resolved r o ∉ s.log := by
  have hr' : ¬ 0 < (s.view r).count .start + (s.view r).count .started := hr
  rw [← List.count_eq_zero, ← count_resolved]
  cases hs.run r with
  | idle h => exact h.count _ (by simp)
  | empty h => exact absurd (by rw [h.started]; omega) hr'
  | ordered h => exact absurd (by rw [h.started]; omega) hr'
  | scheduled h => exact absurd (by rw [h.started]; omega) hr'

/-- Which runs go on after an item. -/
theorem pending_after (hs : s.Sound) (hi : s.threads[i]? = some (item :: rest))
    (h : (s.seenBy rest).Became w items tasks run call)
    (hnew : ∀ region, .start r region ∈ items → ¬ s.HasBegun r) :
    (s.after i item w).Pending r ↔
      (s.Pending r ∨ ∃ region, .start r region ∈ items) ∧ ∀ o, item ≠ .settleRun r o := by
  have hlog : ∀ o, .resolved r o ∈ (s.after i item w).log ↔
      .resolved r o ∈ s.log ∨ item = .settleRun r o := fun o => by
    simp only [after, List.mem_append, mem_noted_resolved]
  constructor
  · rintro ⟨hbegun, hopen⟩
    have hopen' : ∀ o, .resolved r o ∉ s.log ∧ item ≠ .settleRun r o := fun o => by
      simpa [hlog] using hopen o
    refine ⟨?_, fun o => (hopen' o).2⟩
    rcases hasBegun_after hi h hbegun with hb | hb
    · exact .inl ⟨hb, fun o => (hopen' o).1⟩
    · exact .inr hb
  · rintro ⟨hbegun, hitem⟩
    have hlt := (List.getElem?_eq_some_iff.1 hi).1
    rcases hbegun with ⟨hb, hopen⟩ | ⟨region, hmem⟩
    · exact ⟨hasBegun_mono hi h hb, fun o => by simp [hlog, hopen o, hitem o]⟩
    · exact ⟨hasBegun_of_start h hlt hmem, fun o => by
        simp [hlog, hs.not_resolved (hnew region hmem) o, hitem o]⟩

structure Alive (s : Crew α σ ι) (r : RunKey) (region : Program α) : Prop where
  run : ∃ mode, s.world.run? r = some ⟨region, mode⟩
  regions : (s.view r).regions = [region]
  pending : s.Pending r

theorem RunSound.alive {x : Run α} (h : s.RunSound r) (hx : s.world.run? r = some x) :
    s.Alive r x.region := by
  have hbegun : (s.view r).count .started = 1 → s.HasBegun r := fun h => by
    unfold HasBegun
    omega
  have hopen : (∀ o, (s.view r).count (.resolved o) = 0) → ∀ o, .resolved r o ∉ s.log :=
    fun h o => by rw [← List.count_eq_zero, ← count_resolved, h]
  have hx' : (s.view r).run = some x := hx
  cases h with
  | idle h => rw [h.run] at hx'; cases hx'
  | empty h => rw [h.run] at hx'; cases hx'
  | ordered h =>
    have hnone : ∀ o, (s.view r).count (.resolved o) = 0 := fun o => by
      by_contra hne
      rw [h.dead o (by omega)] at hx'
      cases hx'
    obtain rfl := Option.some.inj (hx'.symm.trans (h.live hnone))
    exact ⟨⟨_, hx⟩, h.regions, hbegun h.started, hopen hnone⟩
  | scheduled h =>
    obtain ⟨rfl, hnone⟩ := h.eq_of_run_eq hx'
    exact ⟨⟨_, hx⟩, h.regions, hbegun h.started, hopen hnone⟩

omit [Leaf α] in
theorem mem_begun_iff {region : Program α} :
    (r, region) ∈ s.begun ↔ region ∈ (s.view r).regions := by
  simp [view]

theorem Belongs.unique {op op' : Operation α} (hs : s.Sound) (h : s.Belongs c op)
    (h' : s.Belongs c op') : op' = op := by
  obtain ⟨region, hmem, hop⟩ := h
  obtain ⟨region', hmem', hop'⟩ := h'
  rw [mem_begun_iff] at hmem hmem'
  have heq : region' = region := by
    cases hs.run c.run with
    | idle hv => rw [hv.regions] at hmem; cases hmem
    | empty hv => simp_all [hv.regions]
    | ordered hv => simp_all [hv.regions]
    | scheduled hv => simp_all [hv.regions]
  rw [heq, hop] at hop'
  exact (Option.some.inj hop').symm

theorem Sound.belongs (hs : s.Sound) {op : Operation α} (h : s.world.operation? c = some op) :
    s.Belongs c op := by
  obtain ⟨x, hx, hop⟩ := Option.bind_eq_some_iff.1 h
  have := (hs.run c.run).alive hx
  exact ⟨x.region, mem_begun_iff.2 (by simp [this.regions]), hop⟩

/-- What is in flight has a run that is alive, and is the call of one of its operations. -/
theorem Sound.operation_of_call (hs : s.Sound) {y : Call} (h : s.world.call? c = some y) :
    s.Pending c.run ∧ ∃ op, s.world.operation? c = some op := by
  have hp : (s.view c.run).progress c.node = some y.progress := by
    change (s.world.call? c).map Call.progress = _
    rw [h]
    rfl
  have hfound : ∀ {x : Run α}, s.world.run? c.run = some x → c.node < x.region.ops.length →
      s.Pending c.run ∧ ∃ op, s.world.operation? c = some op := fun {x} hx hlt =>
    ⟨((hs.run c.run).alive hx).pending, x.region.ops[c.node], by simp [World.operation?, hx, hlt]⟩
  cases hs.run c.run with
  | idle hv => rw [hv.progress] at hp; cases hp
  | empty hv => rw [hv.progress] at hp; cases hp
  | @ordered region st fin hv =>
    have hshown := hv.shown c.node
    rw [hp] at hshown
    have hj : (st c.node).isStill = false := by rw [hshown.eq_running]; rfl
    obtain rfl := hv.fin_eq_none hj
    exact hfound hv.run_eq (hv.follows.lt_length (NodeState.isWaiting_eq_false_of_isStill hj))
  | @scheduled region st t holders fin hv =>
    have hshown := hv.shown c.node
    rw [hp] at hshown
    have hj : (st c.node).isStill = false := by rw [hshown.eq_running]; rfl
    obtain rfl := hv.fin_eq_none hj
    exact hfound hv.run_eq (hv.lt_length hj)

/-- A call that is about to be made is not in flight, and has no nested runs. -/
theorem Sound.call?_of_call (hs : s.Sound) (hi : s.threads[i]? = some (.call c :: rest)) :
    s.world.call? c = none ∧ ∀ n, ¬ s.HasBegun (c.nested n) := by
  have hcall : 0 < (s.view c.run).marks c.node .call := count_pos_of_head hi rfl
  have hshown : NodeState.called.Shown ((s.view c.run).progress c.node)
      ((s.view c.run).marks c.node) := by
    rcases (hs.run c.run).not_idle hi rfl with
      ⟨region, st, fin, h⟩ | ⟨region, st, t, holders, fin, h, -⟩
    · exact (h.shown c.node).eq_called hcall ▸ h.shown _
    · exact (h.shown c.node).eq_called hcall ▸ h.shown _
  refine ⟨?_, fun n hn => ?_⟩
  · have := hshown.progress
    simpa [view, NodeState.progress?] using this
  · have hl := (hs.fresh c n hn).1
    rw [hshown.fixed .launched rfl] at hl
    cases hl

omit [Leaf α] in
theorem isLeaf_after {item : Item α ι} (hleaf : (s.after i item w).IsLeaf c) :
    s.IsLeaf c ∨ ∃ region, item = .start c.run region := by
  obtain ⟨info, a, region, hmem, hop⟩ := hleaf
  rcases List.mem_append.1 hmem with hmem | hmem
  · exact .inl ⟨info, a, region, hmem, hop⟩
  · refine .inr ⟨region, ?_⟩
    cases item <;> simp_all [Item.begins]

omit [Leaf α] in
theorem IsLeaf.after (h : s.IsLeaf c) : (s.after i item w).IsLeaf c := by
  obtain ⟨info, a, region, hmem, hop⟩ := h
  exact ⟨info, a, region, List.mem_append_left _ hmem, hop⟩

/-- A call comes to another stage. -/
theorem Shows.after (hs : s.Sound) (h : s.Shows c x) (hi : s.threads[i]? = some (item :: rest))
    (hb : (s.seenBy rest).Became w items tasks run call)
    (hnew : ∀ n region, .start (c.nested n) region ∈ items → ¬ s.HasBegun (c.nested n))
    (hfits : x'.Fits (call c))
    (htokens : ∀ k, (∀ o, k = .settle o → ¬ s.IsLeaf c) →
      x'.weight k + item.token.toList.count (c, k) =
        x.weight k + (items.filterMap Item.token).count (c, k))
    (hnested : ∀ n, x'.nested? = some n ↔
      (x.nested? = some n ∨ ∃ region, .start (c.nested n) region ∈ items) ∧
        ∀ o, item ≠ .settleRun (c.nested n) o)
    (hleaf : (s.after i item w).IsLeaf c → x' = .quiet) : (s.after i item w).Shows c x' := by
  have hcount := fun k => count_tokens_after hi hb (c, k)
  refine ⟨?_, ?_, ?_, fun hn o => ?_, fun n => ?_, hleaf⟩
  · have hcall : (s.after i item w).world.call? = call := hb.call
    rwa [hcall]
  · have := htokens .iterate (by simp)
    have := h.iterate
    have := hcount .iterate
    omega
  · have := htokens .iterated (by simp)
    have := h.iterated
    have := hcount .iterated
    omega
  · have hn' : ¬ s.IsLeaf c := fun hl => hn hl.after
    have := htokens (.settle o) fun _ _ => hn'
    have := h.settle hn' o
    have := hcount (.settle o)
    omega
  · rw [pending_after hs hi hb fun region => hnew n region, h.nested, hnested]

end Crew

end OpFlow.Machine
