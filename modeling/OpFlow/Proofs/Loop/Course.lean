import OpFlow.Proofs.Loop.Plan
import OpFlow.Proofs.Frame.Touched
import OpFlow.Proofs.Machine.Attribution
import OpFlow.Proofs.Machine.Flight
import OpFlow.Proofs.Machine.Rest
import OpFlow.Proofs.Machine.Scene

/-!
The course of a loop in a crew. What happens to a call is read off the items that threads do: that
its nested runs start and end, that its predicate is read, and that it is settled. At every stage of
a loop this is what leads to the phase that the call knows of, however the starts and the ends of
nested runs are interleaved with everything else.
-/
namespace OpFlow.Machine

variable {α σ ι : Type} {b : Backend α σ ι}

def RunKey.number (r : RunKey) : Nat := (r.scope.head?.map Prod.snd).getD 0

@[simp] theorem CallKey.number_nested (c : CallKey) (n : Nat) : (c.nested n).number = n := rfl

namespace World

def predicateRead (b : Backend α σ ι) (w : World α σ ι) (c : CallKey) (l : LoopState)
    (o : Outcome) : List (LoopEvent α) :=
  match o, l.inBody, w.operation? c with
  | .ok (), false, some (.loop _ predicate _ _ _) => [.read (b.read c.run.host predicate w.device)]
  | _, _, _ => []

/-- What happens to a call, if it is a loop, when an item is done. -/
def heard (b : Backend α σ ι) (w : World α σ ι) (c : CallKey) : Item α ι → List (LoopEvent α)
  | .start r region => if r.caller? = some c then [.started r.number region] else []
  | .settleRun r o =>
    if r.caller? = some c then
      .ended r.number o :: match w.call? c with
        | some ⟨_, some l⟩ =>
          match l.progress with
          | .awaited => w.predicateRead b c l o
          | .entered | .settled _ => []
        | _ => []
    else []
  | .iterated c' =>
    if c' = c then
      match w.call? c with
      | some ⟨_, some l⟩ =>
        match l.progress with
        | .settled o => w.predicateRead b c l o
        | .entered | .awaited => []
      | _ => []
    else []
  | .settle c' o => if c' = c then [.settled o] else []
  | .visit _ _ | .submit _ _ | .release _ | .call _ | .returned _ | .iterate _ | .effect _ => []

theorem heard_start (w : World α σ ι) (c : CallKey) (n : Nat) (region : Program α) :
    w.heard b c (.start (c.nested n) region) = [.started n region] := if_pos rfl

theorem heard_settleRun {w : World α σ ι} {c : CallKey} {p : Progress} {l : LoopState}
    (hc : w.call? c = some ⟨p, some l⟩) (n : Nat) (o : Outcome) :
    w.heard b c (.settleRun (c.nested n) o) = .ended n o :: match l.progress with
      | .awaited => w.predicateRead b c l o
      | .entered | .settled _ => [] := by
  rw [heard, if_pos (CallKey.caller?_nested c n), hc]
  rfl

theorem heard_iterated {w : World α σ ι} {c : CallKey} {p : Progress} {l : LoopState}
    (hc : w.call? c = some ⟨p, some l⟩) : w.heard b c (.iterated c) = match l.progress with
      | .settled o => w.predicateRead b c l o
      | .entered | .awaited => [] := by
  rw [heard, if_pos rfl, hc]

/-- Nothing happens to a call by an item that is about something else. -/
theorem heard_eq_nil {w : World α σ ι} {c : CallKey} {item : Item α ι}
    (hstart : ∀ n region, item ≠ .start (c.nested n) region)
    (hrun : ∀ n o, item ≠ .settleRun (c.nested n) o) (htoken : ∀ k, item.token ≠ some (c, k)) :
    w.heard b c item = [] := by
  cases item with
  | start r region =>
    refine if_neg fun hr => ?_
    obtain ⟨n, rfl⟩ := RunKey.eq_nested hr
    exact hstart n region rfl
  | settleRun r o =>
    refine if_neg fun hr => ?_
    obtain ⟨n, rfl⟩ := RunKey.eq_nested hr
    exact hrun n o rfl
  | iterated c' => exact if_neg fun h => htoken .iterated (by rw [h]; rfl)
  | settle c' o => exact if_neg fun h => htoken (.settle o) (by rw [h]; rfl)
  | _ => rfl

theorem Turns.unique {c : CallKey} {condition body : Program α} {trips : Option Nat}
    {l l₁ l₂ : LoopState} {items₁ items₂ : List (Item α ι)}
    (h₁ : Turns c condition body trips l items₁ l₁) (h₂ : Turns c condition body trips l items₂ l₂) :
    items₂ = items₁ ∧ l₂ = l₁ := by
  cases h₁ <;> cases h₂ <;> simp_all

theorem Advances.unique {d : σ} {c : CallKey} {op : Option (Operation α)} {l l₁ l₂ : LoopState}
    {o : Outcome} {items₁ items₂ : List (Item α ι)} (h₁ : Advances b d c op l o items₁ l₁)
    (h₂ : Advances b d c op l o items₂ l₂) : items₂ = items₁ ∧ l₂ = l₁ := by
  cases h₁ <;> cases h₂ <;> grind

end World

section Loop

variable {w : World α σ ι} {c : CallKey} {items : List (Item α ι)} {call : CallKey → Option Call}
  {p : Progress} {l : LoopState}

/-- The end of a nested run of a loop is noted, or the loop goes on. -/
theorem CallMove.of_settleRun {n : Nat} {o : Outcome}
    (hm : CallMove b w (.settleRun (c.nested n) o) items call)
    (hc : w.call? c = some ⟨p, some l⟩) :
    l.progress = .entered ∧ items = [] ∧
        call = Function.update w.call? c (some ⟨p, some { l with progress := .settled o }⟩) ∨
      l.progress = .awaited ∧ (∃ l', World.Advances b w.device c (w.operation? c) l o items l' ∧
        call = Function.update w.call? c (some ⟨p, some l'⟩)) ∨
      ∃ o', l.progress = .settled o' := by
  have hcaller : ∀ {c'}, (c.nested n).caller? = some c' → c' = c := fun {c'} hr =>
    (Option.some.inj ((CallKey.caller?_nested c n).symm.trans hr)).symm
  cases hm with
  | spares hitem => cases hitem
  | ended hitem | settled hitem | void hitem => simp [Item.Settles] at hitem
  | passed hr hc' =>
    rw [hcaller hr, hc] at hc'
    cases hc'
  | noted hr hc' hl =>
    obtain rfl := hcaller hr
    cases hc.symm.trans hc'
    exact .inl ⟨hl, rfl, rfl⟩
  | goesOn hr hc' hl hadv =>
    obtain rfl := hcaller hr
    cases hc.symm.trans hc'
    exact .inr (.inl ⟨hl, _, hadv, rfl⟩)
  | late hr hno =>
    obtain rfl := hcaller hr
    obtain ⟨l', o', hl, hl'⟩ := hno _ _ hc
    cases hl
    exact .inr (.inr ⟨o', hl'⟩)

/-- The start of a nested run of a loop has returned. -/
theorem CallMove.of_iterated (hm : CallMove b w (.iterated c) items call)
    (hc : w.call? c = some ⟨p, some l⟩) :
    (∃ o l', l.progress = .settled o ∧ World.Advances b w.device c (w.operation? c) l o items l' ∧
        call = Function.update w.call? c (some ⟨p, some l'⟩)) ∨
      (∀ o, l.progress ≠ .settled o) ∧ items = [] ∧
        call = Function.update w.call? c (some ⟨p, some { l with progress := .awaited }⟩) := by
  cases hm with
  | spares hitem => cases hitem
  | ended hitem | settled hitem | void hitem => simp [Item.Settles] at hitem
  | loopless hno => exact absurd hc (hno _ _)
  | advances hc' hl hadv =>
    cases hc.symm.trans hc'
    exact .inl ⟨_, _, hl, hadv, rfl⟩
  | waits hc' hl =>
    cases hc.symm.trans hc'
    exact .inr ⟨hl, rfl, rfl⟩

theorem CallMove.of_iterate {info : OpInfo} {predicate : Slice} {condition body : Program α}
    {trips : Option Nat} (hm : CallMove b w (.iterate c) items call)
    (hc : w.call? c = some ⟨p, some l⟩)
    (hop : w.operation? c = some (.loop info predicate condition body trips)) :
    ∃ l', World.Turns c condition body trips l items l' ∧
      call = Function.update w.call? c (some ⟨p, some l'⟩) := by
  cases hm with
  | spares hitem => cases hitem
  | ended hitem | settled hitem | void hitem => simp [Item.Settles] at hitem
  | turnless hno => exact absurd hc (hno _ _ _ _ _ _ _ hop)
  | turns hop' hc' hturns =>
    cases hc.symm.trans hc'
    cases Option.some.inj (hop.symm.trans hop')
    exact ⟨_, hturns, rfl⟩

end Loop

/-- What follows for a loop from the end of a nested run: the phase that it leads to. -/
inductive LoopEnded (trips : Option Nat) (l : LoopState) : Outcome → LoopPhase → Prop
  | failed {e : Error} : LoopEnded trips l (.error e) (.ending (.error e))
  | turned (hin : l.inBody = true)
      (hstarted : l.started = loopNumber trips (l.iteration + 1) false) :
    LoopEnded trips l (.ok ()) (.between (l.iteration + 1) false)
  | came (hin : l.inBody = false) (hstarted : l.started = loopNumber trips l.iteration true) :
    LoopEnded trips l (.ok ()) (.testing l.iteration)

theorem loopNumber_or (trips : Option Nat) (i : Nat) (inBody : Bool) :
    loopNumber trips i (inBody || trips.isSome) = loopNumber trips i inBody := by
  cases trips <;> simp [loopNumber]

section Ended

variable {condition body : Program α} {trips : Option Nat} {l : LoopState} {o : Outcome}
  {t : List (LoopEvent α)}

/-- A nested run of a loop ends. -/
theorem LoopEnded.of_inside (hstarted : l.started = loopNumber trips l.iteration l.inBody + 1)
    (h : LoopPath condition body trips (.inside l.iteration l.inBody) t) (o : Outcome) :
    ∃ phase, LoopEnded trips l o phase ∧ LoopPath condition body trips phase
      (t ++ [.ended (loopNumber trips l.iteration l.inBody) o]) := by
  cases o with
  | error e => exact ⟨_, .failed, .failed h⟩
  | ok u =>
    cases hin : l.inBody with
    | true =>
      rw [hin] at h hstarted
      refine ⟨_, .turned hin ?_, .turned h⟩
      cases trips <;> simp_all [loopNumber]
      omega
    | false =>
      rw [hin] at h hstarted
      obtain rfl := h.trips_eq_none
      exact ⟨_, .came hin (by simpa [loopNumber] using hstarted), .came h⟩

end Ended

namespace Crew

variable [Leaf α] {s s' : Crew α σ ι} {i n : Nat} {item : Item α ι} {rest items : List (Item α ι)}
  {tasks : List (Task ι)} {w : World α σ ι} {run : RunKey → Option (Run α)}
  {call : CallKey → Option Call} {c : CallKey} {x x' : Stage} {o : Outcome} {e : Error}
  {t : List (LoopEvent α)}

/-- Moves of a crew from a world in which nothing has been executed yet, with what has happened to
one call. The backend settles leaf operations only. -/
inductive Course (b : Backend α σ ι) (c : CallKey) : Crew α σ ι → List (LoopEvent α) → Prop
  | fresh {w : World α σ ι} (h : w.IsFresh) : Course b c { world := w } []
  | act {s : Crew α σ ι} {t : List (LoopEvent α)} {i : Nat} {item : Item α ι}
      {rest : List (Item α ι)} {w : World α σ ι} (h : Course b c s t) (hf : s.Faithful)
      (hi : s.threads[i]? = some (item :: rest)) (hw : (s.seenBy (item :: rest)).step? b = some w) :
    Course b c (s.after i item w) (t ++ (s.seenBy rest).heard b c item)
  | other {s s' : Crew α σ ι} {t : List (LoopEvent α)} {choice : Choice σ ι} (h : Course b c s t)
      (hf : s.Faithful) (hchoice : ∀ i, choice ≠ .act i) (hm : Move b choice s s') :
    Course b c s' t

theorem Course.reachable (h : Course b c s t) : ReachableWhile Faithful b s := by
  induction h with
  | fresh h => exact .fresh h
  | act _ hf hi hw ih => exact ih.move hf (.act hi hw)
  | other _ hf _ hm ih => exact ih.move hf hm

theorem Sound.not_started_of_start (hs : s.Sound) {r : RunKey} {region : Program α}
    (hi : s.threads[i]? = some (.start r region :: rest)) : .started r ∉ s.log := fun hmem => by
  have hnone := (hs.idle_of_start hi).count .started (by simp)
  rw [count_view, List.count_eq_zero] at hnone
  exact hnone (List.mem_append_right _ (List.mem_filterMap.2 ⟨_, hmem, rfl⟩))

theorem Sound.started_of_settleRun (hs : s.Sound) {r : RunKey}
    (hi : s.threads[i]? = some (.settleRun r o :: rest)) : .started r ∈ s.log := by
  have hover : 0 < (s.view r).count (.closing o) := count_pos_of_head hi rfl
  have hfound : (s.view r).count .started = 1 → .started r ∈ s.log := fun h => by
    have hmem : (r, .started) ∈ s.signs := List.count_pos_iff.1 (by rw [← count_view, h]; simp)
    simp only [signs, threadSigns, List.mem_append, List.mem_flatMap, List.mem_filterMap] at hmem
    rcases hmem with (⟨_, -, x, -, hx⟩ | ⟨x, -, hx⟩) | ⟨e, he, hx⟩
    · cases x <;> simp [Item.sign] at hx
    · cases x <;> simp [Task.sign] at hx
    · obtain rfl : e = .started r := by cases e <;> simp_all [Event.sign]
      exact he
  cases hs.run r with
  | idle h => rw [h.count _ (by simp)] at hover; cases hover
  | empty h => exact hfound h.started
  | ordered h => exact hfound h.started
  | scheduled h => exact hfound h.started

theorem Shows.nested_of_start (hs : s.Sound) (hx : s.Shows c x) {region : Program α}
    (hi : s.threads[i]? = some (.start (c.nested n) region :: rest)) : x.nested? = some n := by
  refine (hx.nested n).1 ⟨hasBegun_of_head hi, fun o ho => ?_⟩
  have hcount := (hs.idle_of_start hi).count (.resolved o) (by simp)
  rw [count_resolved, List.count_eq_zero] at hcount
  exact hcount ho

theorem Shows.heard_eq_nil (hs : s.Sound) (hx : s.Shows c .quiet) (hleaf : ¬ s.IsLeaf c)
    (hi : s.threads[i]? = some (item :: rest)) : (s.seenBy rest).heard b c item = [] := by
  refine World.heard_eq_nil (fun n region hitem => ?_) (fun n o hitem => ?_) fun k hk => ?_
  · cases hx.nested_of_start hs (hitem ▸ hi)
  · cases hx.nested_of_settleRun hs (hitem ▸ hi)
  · have hpos := count_tokens_pos hi hk
    cases k with
    | settle o => rw [hx.settle hleaf] at hpos; cases hpos
    | iterate => rw [hx.iterate] at hpos; cases hpos
    | iterated => rw [hx.iterated] at hpos; cases hpos

omit [Leaf α] in
/-- If the stage of a call is the same after an item, then a token that the item has used up has come
back. -/
theorem Shows.mem_token_of_still (hx : s.Shows c x) (hx' : (s.after i item w).Shows c x)
    (hne : x ≠ .quiet) (hi : s.threads[i]? = some (item :: rest))
    (hb : (s.seenBy rest).Became w items tasks run call) {k : Token}
    (hk : item.token = some (c, k)) : (c, k) ∈ items.filterMap Item.token := by
  have hleaf : ¬ s.IsLeaf c := fun hl => hne (hx.leaf hl)
  have hleaf' : ¬ (s.after i item w).IsLeaf c := fun hl => hne (hx'.leaf hl)
  have hcount := count_tokens_after hi hb (c, k)
  have hsame : (s.after i item w).tokens.count (c, k) = s.tokens.count (c, k) := by
    cases k with
    | settle o => rw [hx.settle hleaf, hx'.settle hleaf']
    | iterate => rw [hx.iterate, hx'.iterate]
    | iterated => rw [hx.iterated, hx'.iterated]
  rw [hsame, hk, Option.toList_some, List.count_singleton_self] at hcount
  exact List.count_pos_iff.1 (by omega)

theorem Shows.ne_settleRun_of_still (hs : s.Sound) (hx : s.Shows c x)
    (hx' : (s.after i item w).Shows c x) (hi : s.threads[i]? = some (item :: rest)) (n : Nat)
    (o : Outcome) : item ≠ .settleRun (c.nested n) o := fun hitem => by
  subst hitem
  have hpending := (hx'.nested n).2 (hx.nested_of_settleRun hs hi)
  exact hpending.2 o (mem_log_after.2 (.inr rfl))

/-- An item that leaves the stage of a call as it is leaves its loop as it is too. -/
theorem Shows.still (hs : s.Sound) (hx : s.Shows c x) (hx' : (s.after i item w).Shows c x)
    (hne : x ≠ .quiet) (hi : s.threads[i]? = some (item :: rest))
    (hb : (s.seenBy rest).Became w items tasks run call)
    (hm : CallMove b (s.seenBy rest) item items call) {p : Progress} {l : Option LoopState}
    (hc : s.world.call? c = some ⟨p, l⟩) :
    (∃ p', call c = some ⟨p', l⟩) ∧ (∀ n region, .start (c.nested n) region ∉ items) ∧
      (∀ k, item.token ≠ some (c, k)) ∧ ∀ n o, item ≠ .settleRun (c.nested n) o := by
  have hruns := hx.ne_settleRun_of_still hs hx' hi
  have htokens : ∀ k, item.token = some (c, k) → (c, k) ∈ items.filterMap Item.token := fun _ =>
    hx.mem_token_of_still hx' hne hi hb
  by_cases hkey : item.key? = some c
  case neg =>
    obtain ⟨hcall, c', hne', hof⟩ := hm.other hkey
    exact ⟨⟨p, hcall.trans hc⟩, fun n region hmem => hne' ((hof _ hmem).2 c n region rfl).symm,
      fun k hk => hkey (key?_of_token hk), hruns⟩
  have hfits' : x.Fits (call c) := by
    have := hx'.fits
    rwa [show (s.after i item w).world.call? = call from hb.call] at this
  cases hm with
  | spares hitem => rw [key?_of_sparesCalls hitem] at hkey; cases hkey
  | uncalled => exact ⟨⟨p, hc⟩, by simp, by simp [Item.token], hruns⟩
  | called hop hopens =>
    obtain rfl := Option.some.inj hkey
    rw [(hs.call?_of_call hi).1] at hc
    cases hc
  | awaited hc' =>
    obtain rfl := Option.some.inj hkey
    obtain ⟨rfl, rfl⟩ := Call.mk.inj (Option.some.inj (Eq.trans (Eq.symm hc) hc'))
    exact ⟨⟨_, Function.update_self ..⟩, by simp, by simp [Item.token], hruns⟩
  | unreturned => exact ⟨⟨p, hc⟩, by simp, by simp [Item.token], hruns⟩
  | ended hitem hitems =>
    obtain rfl : _ = c := by
      rcases hitem with ⟨rfl, -⟩ | ⟨hitem, -⟩
      · exact Option.some.inj hkey
      · exact Option.some.inj (hitem.key?.symm.trans hkey)
    rw [Function.update_self] at hfits'
    exact absurd hfits'.eq_quiet hne
  | settled hitem =>
    obtain rfl := Option.some.inj (hitem.key?.symm.trans hkey)
    rw [Function.update_self] at hfits'
    exact absurd rfl (hfits'.unsettled hne _)
  | void hitem hc' =>
    obtain rfl := Option.some.inj (hitem.key?.symm.trans hkey)
    obtain ⟨o', rfl⟩ := hc' _ _ hc
    have := hx.fits
    rw [hc] at this
    exact absurd rfl (this.unsettled hne o')
  | turns hop hc' hturns =>
    obtain rfl := Option.some.inj hkey
    have := htokens .iterate rfl
    cases hturns <;> simp [Item.token] at this
  | turnless =>
    obtain rfl := Option.some.inj hkey
    cases htokens .iterate rfl
  | advances hc' hl hadv =>
    obtain rfl := Option.some.inj hkey
    have := htokens .iterated rfl
    cases hadv <;> simp [Item.token] at this
  | waits | loopless =>
    obtain rfl := Option.some.inj hkey
    cases htokens .iterated rfl
  | passed hr | noted hr | goesOn hr | late hr =>
    obtain rfl := Option.some.inj (hr.symm.trans hkey)
    obtain ⟨n, rfl⟩ := RunKey.eq_nested hr
    exact absurd rfl (hruns n _)

variable {info : OpInfo} {predicate : Slice} {condition body : Program α} {trips : Option Nat}
  {l l' : LoopState} {phase : LoopPhase}

/-- The stage of a loop that has been called, what its call knows and its phase fit together. -/
inductive LoopAt (s : Crew α σ ι) (c : CallKey) (condition body : Program α) (trips : Option Nat) :
    Stage → LoopState → LoopPhase → Prop
  | turn {l : LoopState} (hstarted : l.started = loopNumber trips l.iteration l.inBody) :
    LoopAt s c condition body trips .turn l (.between l.iteration l.inBody)
  /-- A nested run is about to be executed. -/
  | asked {x : Stage} {l : LoopState} {inBody : Bool}
      (hx : x.nested? = some (loopNumber trips l.iteration inBody))
      (hnew : .started (c.nested (loopNumber trips l.iteration inBody)) ∉ s.log)
      (hregion : ∀ items ∈ s.threads, ∀ region,
        .start (c.nested (loopNumber trips l.iteration inBody)) region ∈ items →
          region = if inBody || trips.isSome then body else condition)
      (hstarted : l.started = loopNumber trips l.iteration inBody + 1)
      (hin : l.inBody = (inBody || trips.isSome))
      (hgo : inBody = false → trips.any (· ≤ l.iteration) = false) :
    LoopAt s c condition body trips x l (.between l.iteration inBody)
  | running {x : Stage} {l : LoopState}
      (hx : x.nested? = some (loopNumber trips l.iteration l.inBody))
      (hbegun : .started (c.nested (loopNumber trips l.iteration l.inBody)) ∈ s.log)
      (hstarted : l.started = loopNumber trips l.iteration l.inBody + 1) :
    LoopAt s c condition body trips x l (.inside l.iteration l.inBody)
  | closing {o : Outcome} {l : LoopState} {phase : LoopPhase} (h : LoopEnded trips l o phase) :
    LoopAt s c condition body trips (.closing o) l phase
  | settling {o : Outcome} {l : LoopState} :
    LoopAt s c condition body trips (.settling o) l (.ending o)

namespace LoopAt

omit [Leaf α] in
theorem ne_quiet (h : LoopAt s c condition body trips x l phase) : x ≠ .quiet := by
  rintro rfl
  cases h with
  | asked hx | running hx => cases hx

omit [Leaf α] in
theorem progress (h : LoopAt s c condition body trips x l phase) (p : Progress) :
    LoopAt s c condition body trips x { l with progress := p } phase := by
  cases h with
  | turn hstarted => exact .turn (l := { l with progress := p }) hstarted
  | asked hx hnew hregion hstarted hin hgo =>
    exact .asked (l := { l with progress := p }) hx hnew hregion hstarted hin hgo
  | running hx hbegun hstarted => exact .running (l := { l with progress := p }) hx hbegun hstarted
  | closing h =>
    cases h with
    | failed => exact .closing .failed
    | turned hin hstarted => exact .closing (.turned (l := { l with progress := p }) hin hstarted)
    | came hin hstarted => exact .closing (.came (l := { l with progress := p }) hin hstarted)
  | settling => exact .settling

omit [Leaf α] in
/-- A state in which the nested runs of the loop have come no further. -/
theorem mono (h : LoopAt s c condition body trips x l phase)
    (hlog : ∀ n, .started (c.nested n) ∈ s'.log ↔ .started (c.nested n) ∈ s.log)
    (hstart : ∀ items ∈ s'.threads, ∀ n region, .start (c.nested n) region ∈ items →
      ∃ items ∈ s.threads, .start (c.nested n) region ∈ items) :
    LoopAt s' c condition body trips x l phase := by
  cases h with
  | turn hstarted => exact .turn hstarted
  | asked hx hnew hregion hstarted hin hgo =>
    refine .asked hx (fun hmem => hnew ((hlog _).1 hmem)) (fun items hitems region hmem => ?_)
      hstarted hin hgo
    obtain ⟨items', hitems', hmem'⟩ := hstart items hitems _ _ hmem
    exact hregion items' hitems' region hmem'
  | running hx hbegun hstarted => exact .running hx ((hlog _).2 hbegun) hstarted
  | closing h => exact .closing h
  | settling => exact .settling

omit [Leaf α] in
theorem after (h : LoopAt s c condition body trips x l phase)
    (hi : s.threads[i]? = some (item :: rest))
    (hb : (s.seenBy rest).Became w items tasks run call)
    (hitem : ∀ n region, item ≠ .start (c.nested n) region)
    (hitems : ∀ n region, .start (c.nested n) region ∉ items) :
    LoopAt (s.after i item w) c condition body trips x l phase := by
  refine h.mono (fun n => ?_) fun items' hitems' n region hmem => ?_
  · simp only [Crew.after, List.mem_append, mem_noted_started, or_iff_left_iff_imp]
    rintro ⟨region, hregion⟩
    exact absurd hregion (hitem n region)
  · rcases List.mem_or_eq_of_mem_set hitems' with hold | rfl
    · exact ⟨items', hold, hmem⟩
    · rw [hb.agenda, List.mem_append] at hmem
      exact ⟨_, mem_threads hi, List.mem_cons_of_mem _ (hmem.resolve_left (hitems n region))⟩

omit [Leaf α] in
theorem inside (h : LoopAt s c condition body trips (.started n) l phase) :
    LoopAt s c condition body trips (.inside n) l phase := by
  cases h with
  | asked hx hnew hregion hstarted hin hgo => exact .asked hx hnew hregion hstarted hin hgo
  | running hx hbegun hstarted => exact .running hx hbegun hstarted

/-- A loop asks for a nested run. -/
theorem ask (condition body : Program α) (trips : Option Nat) (hs : s.Sound)
    (hi : s.threads[i]? = some (.iterate c :: rest)) {region : Program α} {p : Progress}
    (hc : s.world.call? c = some ⟨p, some l⟩)
    (hb : (s.seenBy rest).Became w [.start (c.nested l.started) region, .iterated c] tasks run call)
    (hregion : region = if l.inBody || trips.isSome then body else condition)
    (hstarted : l.started = loopNumber trips l.iteration l.inBody)
    (hgo : l.inBody = false → trips.any (· ≤ l.iteration) = false) :
    LoopAt (s.after i (.iterate c) w) c condition body trips (.started l.started)
      { l with inBody := l.inBody || trips.isSome, started := l.started + 1, progress := .entered }
      (.between l.iteration l.inBody) := by
  have hnew : ¬ s.HasBegun (c.nested l.started) := fun hbegun => by
    have := (hs.fresh c l.started hbegun).2 p l hc
    omega
  refine .asked (by rw [← hstarted]; rfl) ?_ ?_ (by rw [← hstarted]) rfl hgo
  · rw [← hstarted, Crew.after, List.mem_append, mem_noted_started]
    rintro (hmem | ⟨_, hitem⟩)
    · exact hnew (hasBegun_iff.2 (.inr (List.mem_append_right _ (List.mem_filterMap.2 ⟨_, hmem, rfl⟩))))
    · cases hitem
  · rw [← hstarted]
    have hold : ∀ items ∈ s.threads, ∀ region', .start (c.nested l.started) region' ∉ items :=
      fun items hitems region' hmem => hnew (hasBegun_iff.2 (.inl (List.mem_append_left _
        (List.mem_append_left _ (List.mem_flatMap.2
          ⟨items, hitems, List.mem_filterMap.2 ⟨_, hmem, rfl⟩⟩)))))
    intro items hitems region' hmem
    rcases List.mem_or_eq_of_mem_set hitems with hitems | rfl
    · exact absurd hmem (hold items hitems region')
    · rw [hb.agenda, List.mem_append] at hmem
      rcases hmem with hmem | hmem
      · obtain rfl : region' = region := by simpa using hmem
        exact hregion
      · exact absurd (List.mem_cons_of_mem _ hmem) (hold _ (mem_threads hi) region')

end LoopAt

/-- How far a loop has come, with what has happened to it. -/
inductive LoopTrack (s : Crew α σ ι) (c : CallKey) (condition body : Program α) (trips : Option Nat) :
    Stage → List (LoopEvent α) → Prop
  | uncalled (hl : .launched c ∉ s.log) : LoopTrack s c condition body trips .quiet []
  | going {x : Stage} {t : List (LoopEvent α)} {p : Progress} {l : LoopState} {phase : LoopPhase}
      (hl : .launched c ∈ s.log) (hc : s.world.call? c = some ⟨p, some l⟩)
      (hat : LoopAt s c condition body trips x l phase)
      (hpath : LoopPath condition body trips phase t) : LoopTrack s c condition body trips x t
  | finished {t : List (LoopEvent α)} {o : Outcome} (hl : .launched c ∈ s.log)
      (hsettled : s.SettledWith c o) (hpath : LoopPath condition body trips (.finished o) t) :
    LoopTrack s c condition body trips .quiet t

omit [Leaf α] in
/-- A loop goes on after the end of a nested run. -/
theorem LoopAt.advance {v : World α σ ι} (h : LoopEnded trips l o phase)
    (hpath : LoopPath condition body trips phase t)
    (hop : v.operation? c = some (.loop info predicate condition body trips))
    (hadv : World.Advances b v.device c (v.operation? c) l o items l') :
    ∃ phase', LoopPath condition body trips phase' (t ++ v.predicateRead b c l o) ∧
      LoopAt s c condition body trips (Stage.next items) l' phase' := by
  have hread : ∀ {result}, l.inBody = false → b.read c.run.host predicate v.device = result →
      v.predicateRead b c l (.ok ()) = [.read result] := fun {result} hin hresult => by
    simp only [World.predicateRead, hin, hop, hresult]
  have hpredicate : ∀ {i p' q r n bytes}, v.operation? c = some (.loop i p' q r n) →
      b.read c.run.host p' v.device = bytes → b.read c.run.host predicate v.device = bytes :=
    fun {i p' q r n bytes} hop' hbytes => by
      rw [hop] at hop'
      cases hop'
      exact hbytes
  cases hadv with
  | failed =>
    cases h
    exact ⟨_, by simpa [World.predicateRead] using hpath, .settling⟩
  | next hin =>
    cases h with
    | turned hin' hstarted =>
      exact ⟨_, by simpa [World.predicateRead, hin] using hpath, .turn hstarted⟩
    | came hin' => cases hin.symm.trans hin'
  | unread hin hop' hbytes =>
    cases h with
    | turned hin' => cases hin.symm.trans hin'
    | came =>
      rw [hread hin (hpredicate hop' hbytes)]
      exact ⟨_, .unread hpath, .settling⟩
  | again hin hop' hbytes htrue =>
    cases h with
    | turned hin' => cases hin.symm.trans hin'
    | came _ hstarted =>
      rw [hread hin (hpredicate hop' hbytes)]
      exact ⟨_, .again hpath htrue, .turn (l := { l with inBody := true }) hstarted⟩
  | finished hin hop' hbytes hfalse =>
    cases h with
    | turned hin' => cases hin.symm.trans hin'
    | came =>
      rw [hread hin (hpredicate hop' hbytes)]
      exact ⟨_, .enough hpath hfalse, .settling⟩
  | stuck hin hop' => exact absurd hop (hop' _ _ _ _ _)

/-- A loop takes its next turn. -/
theorem LoopAt.of_turns (hs : s.Sound) (hi : s.threads[i]? = some (.iterate c :: rest))
    {p : Progress} (hc : s.world.call? c = some ⟨p, some l⟩)
    (hb : (s.seenBy rest).Became w items tasks run call)
    (hturns : World.Turns c condition body trips l items l')
    (hnext : x' = .settling (.ok ()) ∧ items = [.settle c (.ok ())] ∨
      x' = .started l.started ∧ l'.started = l.started + 1)
    (hstarted : l.started = loopNumber trips l.iteration l.inBody)
    (hpath : LoopPath condition body trips (.between l.iteration l.inBody) t) :
    ∃ phase, LoopPath condition body trips phase t ∧
      LoopAt (s.after i (.iterate c) w) c condition body trips x' l' phase := by
  cases hturns with
  | finished hin hall =>
    rw [hin] at hpath
    rcases hnext with ⟨rfl, -⟩ | ⟨-, hl⟩
    · exact ⟨_, .finished hpath hall, .settling⟩
    · omega
  | body hin hgo =>
    rcases hnext with ⟨-, hitems⟩ | ⟨rfl, -⟩
    · cases hitems
    · have hask := LoopAt.ask condition body trips hs hi hc hb (by rw [if_pos hin]) hstarted hgo
      rw [hin] at hask
      exact ⟨_, hpath, hask⟩
  | condition hin htrips =>
    rcases hnext with ⟨-, hitems⟩ | ⟨rfl, -⟩
    · cases hitems
    · subst htrips
      have hask := LoopAt.ask condition body none hs hi hc hb (by simp [hin]) hstarted (by simp)
      simp only [Option.isSome_none, Bool.or_false] at hask
      exact ⟨_, hpath, hask⟩

theorem LoopAt.of_settleRun (hs : s.Sound)
    (hi : s.threads[i]? = some (.settleRun (c.nested n) o :: rest))
    (hat : LoopAt s c condition body trips x l phase) (hx : x.nested? = some n)
    (hpath : LoopPath condition body trips phase t) :
    ∃ phase', LoopEnded trips l o phase' ∧
      LoopPath condition body trips phase' (t ++ [.ended n o]) := by
  cases hat with
  | turn | closing | settling => cases hx
  | asked hx₀ hnew =>
    obtain rfl := Option.some.inj (hx₀.symm.trans hx)
    exact absurd (hs.started_of_settleRun hi) hnew
  | running hx₀ hbegun hstarted =>
    obtain rfl := Option.some.inj (hx₀.symm.trans hx)
    exact LoopEnded.of_inside hstarted hpath o

/-- The nested run that a loop has asked for starts. -/
theorem LoopAt.of_start (hs : s.Sound) {region : Program α}
    (hi : s.threads[i]? = some (.start (c.nested n) region :: rest))
    (hat : LoopAt s c condition body trips x l phase) (hx : x.nested? = some n)
    (hpath : LoopPath condition body trips phase t) :
    ∃ phase', LoopPath condition body trips phase' (t ++ [.started n region]) ∧
      LoopAt (s.after i (.start (c.nested n) region) w) c condition body trips x l phase' := by
  cases hat with
  | turn | closing | settling => cases hx
  | running hx₀ hbegun =>
    obtain rfl := Option.some.inj (hx₀.symm.trans hx)
    exact absurd hbegun (hs.not_started_of_start hi)
  | @asked _ _ inBody hx₀ hnew hregion hstarted hin hgo =>
    obtain rfl := Option.some.inj (hx₀.symm.trans hx)
    obtain rfl := hregion _ (mem_threads hi) region List.mem_cons_self
    -- what the call knows of is the number by which the nested run was asked for
    have hnumber : loopNumber trips l.iteration l.inBody = loopNumber trips l.iteration inBody := by
      rw [hin, loopNumber_or]
    refine ⟨.inside l.iteration l.inBody, by rw [hin]; exact hpath.start hgo, .running ?_ ?_ ?_⟩
    · rwa [hnumber]
    · rw [hnumber]
      exact List.mem_append_right _ (by simp [World.noted])
    · rwa [hnumber]

def MayOnlyBe (s : Crew α σ ι) (c : CallKey) (op : Operation α) : Prop :=
  ∀ op', s.Belongs c op' → op' = op

/-- A loop that has not been called does nothing until it is. -/
theorem LoopTrack.of_uncalled (hs : s.Sound) (hx : s.Shows c .quiet)
    (honly : s.MayOnlyBe c (.loop info predicate condition body trips)) (hl : .launched c ∉ s.log)
    (hx' : (s.after i item w).Shows c x') (hi : s.threads[i]? = some (item :: rest))
    (hb : (s.seenBy rest).Became w items tasks run call)
    (hm : CallMove b (s.seenBy rest) item items call)
    (hmove : StageMove b s.world c item .quiet x') :
    LoopTrack (s.after i item w) c condition body trips x' ((s.seenBy rest).heard b c item) := by
  have hleaf : ¬ s.IsLeaf c := fun ⟨info', a, hbelongs⟩ => by cases honly _ hbelongs
  have hcall : (s.after i item w).world.call? = call := hb.call
  rw [hx.heard_eq_nil hs hleaf hi]
  cases hmove with
  | same =>
    refine .uncalled fun hmem => ?_
    obtain ⟨rfl, hsome⟩ := mem_noted_launched.1 ((List.mem_append.1 hmem).resolve_left hl)
    cases hm with
    | spares hitem => cases hitem
    | uncalled hop =>
      rw [show s.world.operation? c = none from hop] at hsome
      cases hsome
    | called hop hopens =>
      obtain rfl := honly _ (hs.belongs hop)
      cases hopens with
      | loop =>
        have hcount := count_tokens_after hi hb (c, .iterate)
        rw [hx'.iterate, hx.iterate] at hcount
        simp [Stage.weight, Item.token] at hcount
    | ended hitem | settled hitem | void hitem =>
      simp [Item.Settles] at hitem
  | body hop | branch hop | unread hop => cases honly _ (hs.belongs hop)
  | loop hop =>
    have hlaunched : .launched c ∈ (s.after i (.call c) w).log :=
      List.mem_append_right _ (mem_noted_launched.2 ⟨rfl, by rw [hop]; rfl⟩)
    cases hm with
    | spares hitem => cases hitem
    | uncalled hop' =>
      rw [show s.world.operation? c = none from hop'] at hop
      cases hop
    | called hop' hopens =>
      obtain rfl := honly _ (hs.belongs hop')
      cases hopens with
      | loop =>
        refine .going hlaunched (by rw [hcall, Function.update_self]) (.turn ?_) .fresh
        cases trips <;> rfl
    | ended hitem | settled hitem | void hitem => simp [Item.Settles] at hitem

theorem LoopTrack.of_finished (hs : s.Sound) (hx : s.Shows c .quiet) (hleaf : ¬ s.IsLeaf c)
    (hl : .launched c ∈ s.log) (hsettled : s.SettledWith c o)
    (hpath : LoopPath condition body trips (.finished o) t)
    (hi : s.threads[i]? = some (item :: rest))
    (hb : (s.seenBy rest).Became w items tasks run call)
    (hm : CallMove b (s.seenBy rest) item items call)
    (hmove : StageMove b s.world c item .quiet x') :
    LoopTrack (s.after i item w) c condition body trips x'
      (t ++ (s.seenBy rest).heard b c item) := by
  rw [hx.heard_eq_nil hs hleaf hi, List.append_nil]
  cases hmove with
  | same => exact .finished (List.mem_append_left _ hl) (hsettled.after hs hi hb hm) hpath
  | body | branch | unread | loop => exact absurd hl (hs.not_launched_of_call hi)

section Going

/-! A loop that has been called goes on. -/

variable (hs : s.Sound) (hx : s.Shows c x) (hl : .launched c ∈ s.log)
  (hop : s.world.operation? c = some (.loop info predicate condition body trips))
  {p : Progress} (hc : s.world.call? c = some ⟨p, some l⟩)
  (hat : LoopAt s c condition body trips x l phase)
  (hpath : LoopPath condition body trips phase t)
  (hi : s.threads[i]? = some (item :: rest)) (hb : (s.seenBy rest).Became w items tasks run call)
  (hm : CallMove b (s.seenBy rest) item items call)

include hl hb

omit [Leaf α] in
theorem LoopTrack.of_update {t' : List (LoopEvent α)}
    (hcall : call = Function.update s.world.call? c (some ⟨p, some l'⟩))
    (hat' : LoopAt (s.after i item w) c condition body trips x' l' phase)
    (hpath' : LoopPath condition body trips phase t') :
    LoopTrack (s.after i item w) c condition body trips x' t' := by
  refine .going (p := p) (List.mem_append_left _ hl) ?_ hat' hpath'
  rw [show (s.after i item w).world.call? = call from hb.call, hcall, Function.update_self]

include hs hx hc hat hpath hi hm

/-- Its stage is the same, but a nested run may have started. -/
theorem LoopTrack.of_same (hx' : (s.after i item w).Shows c x) :
    LoopTrack (s.after i item w) c condition body trips x
      (t ++ (s.seenBy rest).heard b c item) := by
  have hcall : (s.after i item w).world.call? = call := hb.call
  by_cases hstart : ∃ n region, item = .start (c.nested n) region
  · obtain ⟨n, region, rfl⟩ := hstart
    obtain ⟨phase', hpath', hat'⟩ :=
      hat.of_start (w := w) hs hi (hx.nested_of_start hs hi) hpath
    have hsame := (hm.other (c := c) (by simp [Item.key?])).1
    exact .going (List.mem_append_left _ hl) (by rw [hcall, hsame]; exact hc) hat'
      (by rwa [World.heard_start])
  · have hstart' : ∀ n region, item ≠ .start (c.nested n) region := fun n region hitem =>
      hstart ⟨n, region, hitem⟩
    obtain ⟨⟨p', hc'⟩, hitems, htoken, hrun⟩ := hx.still hs hx' hat.ne_quiet hi hb hm hc
    rw [World.heard_eq_nil hstart' hrun htoken, List.append_nil]
    exact .going (List.mem_append_left _ hl) (by rw [hcall, hc']) (hat.after hi hb hstart' hitems)
      hpath

omit hs hx [Leaf α] in
theorem LoopTrack.of_waits (hitem : item = .iterated c) (hstage : x = .started n)
    (hprogress : l.progress = .entered) :
    LoopTrack (s.after i item w) c condition body trips (.inside n)
      (t ++ (s.seenBy rest).heard b c item) := by
  subst hitem hstage
  rcases hm.of_iterated hc with ⟨o, l', hsettled, -⟩ | ⟨-, rfl, hcall⟩
  · cases hprogress.symm.trans hsettled
  · rw [World.heard_iterated (w := s.seenBy rest) hc, hprogress, List.append_nil]
    exact .of_update hl hb hcall ((hat.inside.progress .awaited).after hi hb (by simp) (by simp)) hpath

include hop

omit hx in
theorem LoopTrack.of_turned (hitem : item = .iterate c) (hstage : x = .turn)
    {items' : List (Item α ι)} (hturns : World.Turns c condition body trips l items' l')
    (hnext : x' = .settling (.ok ()) ∧ items' = [.settle c (.ok ())] ∨
      x' = .started l.started ∧ l'.started = l.started + 1) :
    LoopTrack (s.after i item w) c condition body trips x'
      (t ++ (s.seenBy rest).heard b c item) := by
  subst hitem hstage
  cases hat with
  | asked hx₀ | running hx₀ => cases hx₀
  | turn hstarted =>
    obtain ⟨l₁, hturns', hcall⟩ := hm.of_iterate hc hop
    obtain ⟨rfl, rfl⟩ := hturns'.unique hturns
    obtain ⟨phase', hpath', hat'⟩ := LoopAt.of_turns hs hi hc hb hturns hnext hstarted hpath
    exact .of_update hl hb hcall hat' (by simpa [World.heard] using hpath')

omit hs hx [Leaf α] in
/-- The start of a nested run has returned once its end has been noted. -/
theorem LoopTrack.of_advances (hitem : item = .iterated c) (hstage : x = .closing o)
    (hprogress : l.progress = .settled o) {items' : List (Item α ι)}
    (hadv : World.Advances b s.world.device c (s.world.operation? c) l o items' l') :
    LoopTrack (s.after i item w) c condition body trips (.next items')
      (t ++ (s.seenBy rest).heard b c item) := by
  subst hitem hstage
  cases hat with
  | asked hx₀ | running hx₀ => cases hx₀
  | closing hended =>
    rcases hm.of_iterated hc with ⟨o', l₁, hsettled, hadv', hcall⟩ | ⟨hsettled, -⟩
    · cases hprogress.symm.trans hsettled
      obtain ⟨rfl, rfl⟩ := hadv'.unique hadv
      obtain ⟨phase', hpath', hat'⟩ := LoopAt.advance (s := s) hended hpath hop hadv
      rw [World.heard_iterated (w := s.seenBy rest) hc, hprogress]
      exact .of_update hl hb hcall (hat'.after hi hb (by simp) (by cases hadv <;> simp)) hpath'
    · exact absurd hprogress (hsettled _)

omit hop hx in
theorem LoopTrack.of_noted (hitem : item = .settleRun (c.nested n) o) (hstage : x = .started n)
    (hprogress : l.progress = .entered) :
    LoopTrack (s.after i item w) c condition body trips (.closing o)
      (t ++ (s.seenBy rest).heard b c item) := by
  subst hitem hstage
  obtain ⟨phase', hended, hpath'⟩ := hat.of_settleRun hs hi rfl hpath
  rcases hm.of_settleRun hc with ⟨-, rfl, hcall⟩ | ⟨hl₁, -⟩ | ⟨o', hl₁⟩
  · rw [World.heard_settleRun (w := s.seenBy rest) hc, hprogress]
    have hat' : LoopAt s c condition body trips (.closing o) l phase' := .closing hended
    exact .of_update hl hb hcall ((hat'.progress (.settled o)).after hi hb (by simp) (by simp)) hpath'
  · cases hprogress.symm.trans hl₁
  · cases hprogress.symm.trans hl₁

omit hx in
/-- A nested run has ended once its start has returned. -/
theorem LoopTrack.of_goesOn (hitem : item = .settleRun (c.nested n) o) (hstage : x = .inside n)
    (hprogress : l.progress = .awaited) {items' : List (Item α ι)}
    (hadv : World.Advances b s.world.device c (s.world.operation? c) l o items' l') :
    LoopTrack (s.after i item w) c condition body trips (.next items')
      (t ++ (s.seenBy rest).heard b c item) := by
  subst hitem hstage
  obtain ⟨phase', hended, hpath'⟩ := hat.of_settleRun hs hi rfl hpath
  rcases hm.of_settleRun hc with ⟨hl₁, -⟩ | ⟨-, ⟨l₁, hadv', hcall⟩⟩ | ⟨o', hl₁⟩
  · cases hprogress.symm.trans hl₁
  · obtain ⟨rfl, rfl⟩ := hadv'.unique hadv
    obtain ⟨phase'', hpath'', hat'⟩ := LoopAt.advance (s := s) hended hpath' hop hadv
    rw [List.append_assoc] at hpath''
    rw [World.heard_settleRun (w := s.seenBy rest) hc, hprogress]
    exact .of_update hl hb hcall (hat'.after hi hb (by simp) (by cases hadv <;> simp)) hpath''
  · cases hprogress.symm.trans hl₁

theorem LoopTrack.of_going (hx' : (s.after i item w).Shows c x')
    (hmove : StageMove b s.world c item x x') :
    LoopTrack (s.after i item w) c condition body trips x'
      (t ++ (s.seenBy rest).heard b c item) := by
  have hfits := hx.fits
  rw [hc] at hfits
  cases hmove with
  | same => exact .of_same hs hx hl hc hat hpath hi hb hm hx'
  | body hop' | branch hop' | unread hop' | loop => exact absurd rfl hat.ne_quiet
  | turned hop' hc' hturns hnext =>
    cases hc.symm.trans hc'
    cases Option.some.inj (hop.symm.trans hop')
    exact .of_turned hs hl hop hc hat hpath hi hb hm rfl rfl hturns hnext
  | lost hno => exact absurd hop (hno _ _ _ _ _)
  | waits => exact .of_waits hl hc hat hpath hi hb hm rfl rfl hfits.2
  | advances hc' hadv =>
    cases hc.symm.trans hc'
    exact .of_advances hl hop hc hat hpath hi hb hm rfl rfl hfits.2 hadv
  | noted => exact .of_noted hs hl hc hat hpath hi hb hm rfl rfl hfits.2
  | goesOn hc' hadv =>
    cases hc.symm.trans hc'
    exact .of_goesOn hs hl hop hc hat hpath hi hb hm rfl rfl hfits.2 hadv
  | passed hc' => cases hc.symm.trans hc'
  | @settled o =>
    cases hat with
    | asked hx₀ | running hx₀ => cases hx₀
    | settling =>
      rw [show (s.seenBy rest).heard b c (.settle c o) = [.settled o] from if_pos rfl]
      exact .finished (List.mem_append_left _ hl) (hx.settledWith hb hm) hpath.settled

end Going

/-- An item lets a loop come further. -/
theorem LoopTrack.move (hs : s.Sound) (hf : s.Faithful) (hx : s.Shows c x)
    (honly : s.MayOnlyBe c (.loop info predicate condition body trips))
    (h : LoopTrack s c condition body trips x t) (hi : s.threads[i]? = some (item :: rest))
    (hb : (s.seenBy rest).Became w items tasks run call)
    (hm : CallMove b (s.seenBy rest) item items call) :
    ∃ x', (s.after i item w).Shows c x' ∧ LoopTrack (s.after i item w) c condition body trips x'
      (t ++ (s.seenBy rest).heard b c item) := by
  obtain ⟨x', hx', hmove⟩ := hx.move hs hf hi hb hm
  refine ⟨x', hx', ?_⟩
  have hleaf : ¬ s.IsLeaf c := fun ⟨info', a, hbelongs⟩ => by cases honly _ hbelongs
  cases h with
  | uncalled hl => exact .of_uncalled hs hx honly hl hx' hi hb hm hmove
  | going hl hc hat hpath =>
    obtain ⟨-, op, hop⟩ := hs.operation_of_call hc
    obtain rfl := honly op (hs.belongs hop)
    exact .of_going hs hx hl hop hc hat hpath hi hb hm hx' hmove
  | finished hl hsettled hpath => exact .of_finished hs hx hleaf hl hsettled hpath hi hb hm hmove

omit [Leaf α] in
/-- What is not done by a thread leaves all loops as they are. -/
theorem LoopTrack.spawned {agenda : List (Item α ι)} {events : List Event}
    (h : LoopTrack s c condition body trips x t) (hsp : s.Spawned s' tasks agenda events)
    (hlog : s'.log = s.log ++ events)
    (hagenda : ∀ y ∈ agenda, y.token = none ∧ ∀ r region, y = .start r region → r.scope = [])
    (hevents : ∀ e ∈ events, ∃ c, e = .dropped c) : LoopTrack s' c condition body trips x t := by
  have hold : ∀ {e}, (∀ c, e ≠ .dropped c) → (e ∈ s'.log ↔ e ∈ s.log) := fun {e} he => by
    rw [hlog, List.mem_append, or_iff_left]
    intro hmem
    obtain ⟨c', rfl⟩ := hevents e hmem
    exact he c' rfl
  cases h with
  | uncalled hl => exact .uncalled fun hmem => hl ((hold (by simp)).1 hmem)
  | going hl hc hat hpath =>
    refine .going ((hold (by simp)).2 hl) (by rw [hsp.call, hc])
      (hat.mono (fun n => hold (by simp)) fun items hitems n region hmem => ?_) hpath
    rw [hsp.threads, List.mem_append, List.mem_singleton] at hitems
    rcases hitems with hitems | rfl
    · exact ⟨items, hitems, hmem⟩
    · cases (hagenda _ hmem).2 _ _ rfl
  | finished hl hsettled hpath =>
    refine .finished ((hold (by simp)).2 hl) ?_ hpath
    rcases hsettled with ⟨l, hc⟩ | hended
    · exact .inl ⟨l, by rw [hsp.call, hc]⟩
    · exact .inr ((hold (by simp)).2 hended)

theorem MayOnlyBe.of_move {ch : Choice σ ι} {op : Operation α} (hm : Move b ch s s')
    (h : s'.MayOnlyBe c op) : s.MayOnlyBe c op := fun op' hbelongs => h op' (hm.belongs hbelongs)

/-- At every moment of its course a loop is on the path that has led it there. -/
theorem Course.track (h : Course b c s t)
    (honly : s.MayOnlyBe c (.loop info predicate condition body trips)) :
    ∃ x, s.Shows c x ∧ LoopTrack s c condition body trips x t := by
  induction h with
  | fresh hw =>
    obtain ⟨x, hx⟩ := (ReachableWhile.fresh hw : ReachableWhile Faithful b _).shows c
    have hnone := hx.fits
    simp only [World.call?, hw.execution?_eq_none, Option.bind_none] at hnone
    obtain rfl := hnone.eq_quiet
    exact ⟨_, hx, .uncalled (by simp)⟩
  | @act s t i item rest w h hf hi hw ih =>
    have hs := h.reachable.reachable.sound
    have honly' := honly.of_move (.act hi hw)
    obtain ⟨x, hx, htrack⟩ := ih honly'
    obtain ⟨items, tasks, run, call, hb, hc⟩ := World.step_cases rfl hw fun r region hr =>
      hs.known r (hasBegun_of_head (hr ▸ hi))
    exact htrack.move hs hf hx honly' hi hb hc
  | @other s s' t choice h hf hchoice hm ih =>
    obtain ⟨x, hx, htrack⟩ := ih (honly.of_move hm)
    obtain ⟨tasks, agenda, events, hsp, hlog, ha, he⟩ := hm.spawned_of_ne_act hchoice
    exact ⟨x, hx.spawned hsp hlog ha he, htrack.spawned hsp hlog ha he⟩

end Crew

end OpFlow.Machine
