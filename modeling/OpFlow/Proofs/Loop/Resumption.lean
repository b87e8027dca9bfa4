import OpFlow.Proofs.Loop.Course

/-!
A loop goes on in two ways: inline, when a nested run has ended before its start returns, or resumed
by the end of a nested run that was awaited. Both do the same. With the path that a loop is on this
settles what a loop does: it goes by its plan, reads its predicate only if it has no trip count, and
is settled exactly once.
-/
namespace OpFlow

namespace Assoc

variable {κ β : Type} [DecidableEq κ]

theorem set_set (m : Assoc κ β) (k : κ) (x y : β) : (m.set k x).set k y = m.set k y := by
  simp [set, erase]

end Assoc

namespace Machine

variable {α σ ι : Type} {b : Backend α σ ι}

namespace World

variable (w : World α σ ι) (c : CallKey) (n : Nat) (o : Outcome)

theorem modifyExecution_modifyExecution (r : RunKey) (f g : Execution α → Execution α) :
    (w.modifyExecution r f).modifyExecution r g = w.modifyExecution r (g ∘ f) := by
  have harray : ∀ {β : Type} (xs : Array β) (i : Nat) (f g : β → β),
      (xs.modify i f).modify i g = xs.modify i (g ∘ f) := fun xs i f g => by
    apply Array.ext_getElem?
    intro j
    by_cases hj : i = j <;> simp [Array.getElem?_modify, hj]
  have hhost : ∀ (f g : Host α → Host α), (w.modifyHost r.host f).modifyHost r.host g =
      w.modifyHost r.host (g ∘ f) := fun f g => by
    simp [modifyHost, harray]
  rw [modifyExecution, modifyExecution, hhost, modifyExecution]
  congr 1
  funext h
  simp [harray]

theorem setCall_setCall (x y : Call) : (w.setCall c x).setCall c y = w.setCall c y := by
  rw [setCall, setCall, modifyExecution_modifyExecution, setCall]
  congr 1
  funext e
  simp [Assoc.set_set]

theorem eraseRun_setCall (y : Call) :
    (w.setCall c y).eraseRun (c.nested n) = (w.eraseRun (c.nested n)).setCall c y := by
  have hmodify : ∀ (v : World α σ ι) (f : Execution α → Execution α),
      v.modifyExecution (c.nested n) f = v.modifyExecution c.run f := fun _ _ => rfl
  rw [eraseRun, eraseRun, setCall, setCall, hmodify, hmodify, modifyExecution_modifyExecution,
    modifyExecution_modifyExecution]
  rfl

def forgetReturn (w : World α σ ι) (c : CallKey) : World α σ ι :=
  match w.call? c with
  | some ⟨p, some l⟩ => w.setCall c ⟨p, some { l with progress := .entered }⟩
  | _ => w

variable {w c}

theorem forgetReturn_setCall (hw : w.Knows c.run) (p : Progress) (l : LoopState) :
    (w.setCall c ⟨p, some l⟩).forgetReturn c =
      w.setCall c ⟨p, some { l with progress := .entered }⟩ := by
  rw [forgetReturn, call?_setCall_of_knows _ _ _ _ hw, if_pos rfl]
  exact setCall_setCall ..

theorem forgetReturn_push (items : List (Item α ι)) :
    (w.push items).forgetReturn c = (w.forgetReturn c).push items := by
  rw [forgetReturn, call?_push, forgetReturn]
  split <;> rfl

/-- How a loop goes on does not depend on who noted the end of a nested run. -/
theorem forgetReturn_advance (hw : w.Knows c.run) (p q : Progress) (l : LoopState) (o : Outcome) :
    ((w.setCall c ⟨p, some { l with progress := q }⟩).advance b c
        ⟨p, some { l with progress := q }⟩ { l with progress := q } o).forgetReturn c =
      ((w.setCall c ⟨p, some { l with progress := .entered }⟩).advance b c
        ⟨p, some { l with progress := .entered }⟩ { l with progress := .entered } o).forgetReturn c := by
  have hop : ∀ y, (w.setCall c y).operation? c = w.operation? c := fun y => by simp [operation?]
  cases o with
  | error e => simp only [advance, forgetReturn_push, forgetReturn_setCall hw]
  | ok u =>
    simp only [advance, hop, device_setCall]
    split
    · simp only [setCall_setCall, forgetReturn_push, forgetReturn_setCall hw]
    · split
      · split
        · simp only [forgetReturn_push, forgetReturn_setCall hw]
        · split
          · simp only [setCall_setCall, forgetReturn_push, forgetReturn_setCall hw]
          · simp only [forgetReturn_push, forgetReturn_setCall hw]
      · simp only [forgetReturn_setCall hw]

/-- A nested run that ends before its start returns, and one that ends after, take a loop to the same
world. -/
theorem iterated_settleRun {p : Progress} {l : LoopState} (hc : w.call? c = some ⟨p, some l⟩)
    (hl : l.progress = .entered) :
    ((w.settleRun b (c.nested n) o).iterated b c).forgetReturn c =
      ((w.iterated b c).settleRun b (c.nested n) o).forgetReturn c := by
  have hknows := knows_of_call? hc
  have hknows' : (w.eraseRun (c.nested n)).Knows c.run := (knows_eraseRun ..).2 hknows
  have hfirst : (w.settleRun b (c.nested n) o).iterated b c =
      ((w.eraseRun (c.nested n)).setCall c ⟨p, some { l with progress := .settled o }⟩).advance b c
        ⟨p, some { l with progress := .settled o }⟩ { l with progress := .settled o } o := by
    simp only [settleRun, CallKey.caller?_nested, call?_eraseRun, hc, hl, iterated,
      call?_setCall_of_knows _ _ _ _ hknows', if_true]
  have hsecond : (w.iterated b c).settleRun b (c.nested n) o =
      ((w.eraseRun (c.nested n)).setCall c ⟨p, some { l with progress := .awaited }⟩).advance b c
        ⟨p, some { l with progress := .awaited }⟩ { l with progress := .awaited } o := by
    simp only [settleRun, CallKey.caller?_nested, iterated, hc, hl, eraseRun_setCall,
      call?_setCall_of_knows _ _ _ _ hknows', if_true]
  rw [hfirst, hsecond]
  exact (forgetReturn_advance hknows' p _ l o).trans (forgetReturn_advance hknows' p _ l o).symm

variable {o} in
theorem advance_of_read (read : Nat → Slice → σ → Except Error Bytes) (y : Call) (l : LoopState)
    (h : o = .ok () → l.inBody = true) :
    w.advance { b with read } c y l o = w.advance b c y l o := by
  cases o with
  | error e => rfl
  | ok u => rw [advance, advance, if_pos (h rfl), if_pos (h rfl)]

end World

namespace Crew

variable [Leaf α] {s : Crew α σ ι} {i n : Nat} {item : Item α ι} {rest : List (Item α ι)}
  {c : CallKey} {x : Stage} {o : Outcome} {t : List (LoopEvent α)} {info : OpInfo}
  {predicate : Slice} {condition body : Program α} {trips : Option Nat}

omit [Leaf α] in
/-- A loop with a trip count turns only its body. -/
theorem LoopAt.inBody {m : Nat} {l : LoopState} {phase : LoopPhase}
    (h : LoopAt s c condition body (some m) x l phase)
    (hpath : LoopPath condition body (some m) phase t)
    (hx : x = .closing (.ok ()) ∨ ∃ n, x.nested? = some n ∧ .started (c.nested n) ∈ s.log) :
    l.inBody = true := by
  cases h with
  | turn | settling => simp [Stage.nested?] at hx
  | asked hx₀ hnew =>
    rcases hx with rfl | ⟨n, hn, hbegun⟩
    · cases hx₀
    · obtain rfl := Option.some.inj (hx₀.symm.trans hn)
      exact absurd hbegun hnew
  | running => exact hpath.counted.1
  | closing h =>
    rcases hx with hx | ⟨n, hn, -⟩
    · cases hx
      cases h with
      | turned hin => exact hin
      | came => exact hpath.counted.elim
    · cases hn

omit [Leaf α] in
theorem LoopTrack.inBody {m : Nat} (h : LoopTrack s c condition body (some m) x t)
    {p : Progress} {l : LoopState} (hc : s.world.call? c = some ⟨p, some l⟩)
    (hat : x = .closing (.ok ()) ∨ ∃ n, x.nested? = some n ∧ .started (c.nested n) ∈ s.log) :
    l.inBody = true := by
  cases h with
  | uncalled | finished => simp [Stage.nested?] at hat
  | going hl hc' hat' hpath =>
    cases hc.symm.trans hc'
    exact hat'.inBody hpath hat

omit [Leaf α] in
theorem started_mem_heard {v : World α σ ι} {region : Program α} :
    .started n region ∈ v.heard b c item ↔ item = .start (c.nested n) region := by
  have hread : ∀ l o, LoopEvent.started n region ∉ v.predicateRead b c l o := fun l o => by
    unfold World.predicateRead
    split <;> simp
  cases item with
  | start r region' =>
    by_cases hr : r.caller? = some c
    · obtain ⟨m, rfl⟩ := RunKey.eq_nested hr
      simp [World.heard_start, CallKey.nested_inj, eq_comm]
    · simp only [World.heard, if_neg hr, List.not_mem_nil, Item.start.injEq, false_iff, not_and]
      rintro rfl
      exact absurd rfl hr
  | settleRun r o =>
    simp only [World.heard, reduceCtorEq, iff_false]
    repeat' split
    all_goals simp [hread]
  | iterated c' =>
    simp only [World.heard, reduceCtorEq, iff_false]
    repeat' split
    all_goals simp [hread]
  | settle c' o =>
    simp only [World.heard, reduceCtorEq, iff_false]
    split <;> simp
  | _ => simp [World.heard]

theorem Course.started_mem_iff {region : Program α} (h : Course b c s t) :
    .started n region ∈ t ↔ (c.nested n, region) ∈ s.begun := by
  induction h with
  | fresh => simp
  | @act s t i item rest w h hf hi hw ih =>
    have hbegins : (c.nested n, region) ∈ item.begins ↔ item = .start (c.nested n) region := by
      cases item <;> simp [Item.begins, eq_comm]
    rw [after, List.mem_append, List.mem_append, ih, started_mem_heard, hbegins]
  | other h hf hchoice hm ih =>
    obtain ⟨tasks, agenda, events, hsp, -⟩ := hm.spawned_of_ne_act hchoice
    rw [ih, hsp.begun]

theorem Sound.mayOnlyBe {op : Operation α} (hs : s.Sound) (hop : s.Belongs c op) :
    s.MayOnlyBe c op := fun _ h => hop.unique hs h

/-- No item of a loop with a trip count reads anything. -/
theorem Course.step_of_read {m : Nat} (h : Course b c s t)
    (hop : s.Belongs c (.loop info predicate condition body (some m)))
    (hi : s.threads[i]? = some (item :: rest)) (hkey : item.key? = some c)
    (read : Nat → Slice → σ → Except Error Bytes) :
    (s.seenBy (item :: rest)).step? { b with read } = (s.seenBy (item :: rest)).step? b := by
  have hs := h.reachable.reachable.sound
  obtain ⟨x, hx, htrack⟩ := h.track (hs.mayOnlyBe hop)
  have hfits := hx.fits
  cases item with
  | call c' =>
    obtain rfl := Option.some.inj hkey
    simp only [World.step?, seenBy, World.call]
    cases hop' : World.operation? { s.world with agenda := rest } c' with
    | none => rfl
    | some op =>
      obtain rfl := hop.unique hs (hs.belongs hop')
      rfl
  | iterated c' =>
    obtain rfl := Option.some.inj hkey
    simp only [World.step?, seenBy, World.iterated]
    cases hc : World.call? { s.world with agenda := rest } c' with
    | none => rfl
    | some y =>
      obtain ⟨p, l⟩ := y
      cases l with
      | none => rfl
      | some l =>
        cases hl : l.progress with
        | entered | awaited => simp only [hl]
        | settled o =>
          simp only [hl]
          refine congrArg some (World.advance_of_read read _ l fun ho => htrack.inBody hc (.inl ?_))
          rw [show s.world.call? c' = _ from hc] at hfits
          rcases Stage.eq_started_or_closing (hx.pos_of_token hi rfl (by simp)) with ⟨n, rfl⟩ | ⟨o', rfl⟩
          · cases hl.symm.trans hfits.2
          · cases hl.symm.trans hfits.2
            rw [ho]
  | settleRun r o =>
    obtain ⟨n, rfl⟩ := RunKey.eq_nested hkey
    simp only [World.step?, seenBy, World.settleRun, CallKey.caller?_nested, World.call?_eraseRun]
    cases hc : World.call? { s.world with agenda := rest } c with
    | none => rfl
    | some y =>
      obtain ⟨p, l⟩ := y
      cases l with
      | none => rfl
      | some l =>
        cases hl : l.progress with
        | entered | settled => simp only [hl]
        | awaited =>
          simp only [hl]
          exact congrArg some (World.advance_of_read read _ l fun _ => htrack.inBody hc
            (.inr ⟨n, hx.nested_of_settleRun hs hi, hs.started_of_settleRun hi⟩))
  | effect e =>
    cases e with
    | settle c' o => rfl
    | work | submit => cases hkey
  | _ => rfl

theorem SettledWith.launched (hs : s.Sound) (h : s.SettledWith c o) : .launched c ∈ s.log := by
  rcases h with ⟨l, hl⟩ | hended
  · exact hs.launched_of_call hl
  · exact hs.launched_of_ended hended

theorem Sound.call?_of_ended (hs : s.Sound) (h : .ended c o ∈ s.log) : s.world.call? c = none := by
  simpa [view, NodeState.progress?] using ((hs.run c.run).exists_shown h).progress

theorem SettledWith.unique (hs : s.Sound) {o' : Outcome} (h : s.SettledWith c o)
    (h' : s.SettledWith c o') : o' = o := by
  rcases h with ⟨l, hl⟩ | hended
  · rcases h' with ⟨l', hl'⟩ | hended'
    · cases hl.symm.trans hl'
      rfl
    · cases hl.symm.trans (hs.call?_of_ended hended')
  · rcases h' with ⟨l', hl'⟩ | hended'
    · cases hl'.symm.trans (hs.call?_of_ended hended)
    · exact hs.ended_unique hended hended'

/-- What happens to a loop says whether it has been settled. -/
theorem LoopTrack.settled_mem_iff (hs : s.Sound) (hx : s.Shows c x)
    (h : LoopTrack s c condition body trips x t) : .settled o ∈ t ↔ s.SettledWith c o := by
  cases h with
  | uncalled hl => exact iff_of_false List.not_mem_nil fun h => hl (h.launched hs)
  | going hl hc hat hpath =>
    refine iff_of_false (fun hmem => ?_) fun h => ?_
    · obtain rfl := hpath.settled_mem_iff.1 hmem
      cases hat with
      | closing h => cases h
    · have hfits := hx.fits
      rw [hc] at hfits
      rcases h with ⟨l', hl'⟩ | hended
      · cases hc.symm.trans hl'
        exact hfits.unsettled hat.ne_quiet o rfl
      · cases hc.symm.trans (hs.call?_of_ended hended)
  | finished hl hsettled hpath =>
    rw [hpath.settled_mem_iff, LoopPhase.finished.injEq]
    exact ⟨fun h => h ▸ hsettled, fun h => (h.unique hs hsettled)⟩

omit [Leaf α] in
/-- When no thread has anything to do and no nested run of a loop goes on, the loop is settled. -/
theorem LoopTrack.settledWith_of_rest (hx : s.Shows c x)
    (h : LoopTrack s c condition body trips x t) (hrest : ∀ items ∈ s.threads, items = [])
    (hl : .launched c ∈ s.log) (hnested : ∀ n, ¬ s.Pending (c.nested n)) :
    ∃ o, s.SettledWith c o := by
  have htokens : s.tokens = [] := List.flatMap_eq_nil_iff.2 fun items hitems => by
    rw [hrest items hitems]
    rfl
  cases h with
  | uncalled hl' => exact absurd hl hl'
  | finished _ hsettled => exact ⟨_, hsettled⟩
  | going _ hc hat =>
    have hleaf : ¬ s.IsLeaf c := fun h => hat.ne_quiet (hx.leaf h)
    cases x with
    | quiet => exact absurd rfl hat.ne_quiet
    | turn => simpa [htokens, Stage.weight] using hx.iterate
    | inside n | started n => exact absurd ((hx.nested n).2 rfl) (hnested n)
    | closing o => simpa [htokens, Stage.weight] using hx.iterated
    | settling o => simpa [htokens, Stage.weight] using hx.settle hleaf o

/-- What happens to a loop, however its nested runs end and whatever else goes on, is the beginning
of a plan: without a trip count the condition runs, then the body and the condition while the byte
read after the condition is not zero; with one the body runs so many times and nothing is read; and a
failure is the last thing before the loop is settled with it. The loop is settled at the end of its
plan, with the outcome that the plan tells, and so it ends once; and it is settled when nothing is
left to do and no nested run goes on. Whether a nested run ends before or after its start returns,
the loop goes on to the same world. -/
theorem Course.loop_runs (h : Course b c s t)
    (hop : s.Belongs c (.loop info predicate condition body trips)) :
    (∃ t' o, LoopPlan condition body trips t' o ∧ t <+: t' ++ [.settled o]) ∧
    (∀ n region, .started n region ∈ t ↔ (c.nested n, region) ∈ s.begun) ∧
    (∀ o, .settled o ∈ t ↔ s.SettledWith c o) ∧
    (∀ o, .settled o ∈ t → ∃ t', LoopPlan condition body trips t' o ∧ t = t' ++ [.settled o]) ∧
    ((∀ items ∈ s.threads, items = []) → .launched c ∈ s.log → (∀ n, ¬ s.Pending (c.nested n)) →
      ∃ o, .settled o ∈ t ∧ s.log.count (.ended c o) = 1 ∧ ∀ o', .ended c o' ∈ s.log → o' = o) ∧
    (trips.isSome → ∀ (i : Nat) item rest, s.threads[i]? = some (item :: rest) → item.key? = some c →
      ∀ read, (s.seenBy (item :: rest)).step? { b with read } =
        (s.seenBy (item :: rest)).step? b) ∧
    ∀ p l, s.world.call? c = some ⟨p, some l⟩ → l.progress = .entered → ∀ agenda n o,
      (((s.seenBy agenda).settleRun b (c.nested n) o).iterated b c).forgetReturn c =
        (((s.seenBy agenda).iterated b c).settleRun b (c.nested n) o).forgetReturn c := by
  have hs := h.reachable.reachable.sound
  obtain ⟨x, hx, htrack⟩ := h.track (hs.mayOnlyBe hop)
  have hsettled : ∀ o, .settled o ∈ t ↔ s.SettledWith c o := fun o => htrack.settled_mem_iff hs hx
  refine ⟨?planned, fun n region => h.started_mem_iff, hsettled, fun o ho => ?whole,
    fun hrest hl hnested => ?atRest,
    fun htrips i item rest hi hkey read => ?unread,
    fun p l hc hl agenda n o => World.iterated_settleRun (w := s.seenBy agenda) n o hc hl⟩
  case planned =>
    cases htrack with
    | uncalled => exact (LoopPath.fresh : LoopPath condition body trips _ _).planned
    | going _ _ _ hpath | finished _ _ hpath => exact hpath.planned
  case whole =>
    cases htrack with
    | uncalled => cases ho
    | going _ _ hat hpath =>
      obtain rfl := hpath.settled_mem_iff.1 ho
      cases hat with
      | closing h => cases h
    | finished _ _ hpath =>
      cases hpath.settled_mem_iff.1 ho
      exact hpath.planned_of_finished
  case atRest =>
    obtain ⟨o, ho⟩ := htrack.settledWith_of_rest hx hrest hl hnested
    have hended : .ended c o ∈ s.log := by
      rcases ho with ⟨l, hc⟩ | hended
      · cases hs.awaited_of_call hrest hc
      · exact hended
    exact ⟨o, (hsettled o).2 ho, hs.count_ended hended, fun o' ho' => hs.ended_unique hended ho'⟩
  case unread =>
    obtain ⟨m, rfl⟩ := Option.isSome_iff_exists.1 htrips
    exact h.step_of_read hop hi hkey read

theorem Course.actOnce (h : Course b c s t) (hf : s.Faithful) (i : Nat) :
    ∃ t, Course b c (s.act b i) t := by
  unfold Crew.act
  split
  case h_1 item rest hi =>
    cases hw : (s.seenBy (item :: rest)).step? b with
    | none => exact ⟨t, h⟩
    | some w => exact ⟨_, h.act hf hi hw⟩
  case h_2 => exact ⟨t, h⟩

theorem Course.acts (h : Course b c s t) (i n : Nat)
    (hf : ∀ k < n, ((Crew.act b i)^[k] s).Faithful) : ∃ t, Course b c ((Crew.act b i)^[n] s) t := by
  induction n with
  | zero => exact ⟨t, h⟩
  | succ n ih =>
    obtain ⟨t, h⟩ := ih fun k hk => hf k (Nat.lt_succ_of_lt hk)
    rw [Function.iterate_succ_apply']
    exact h.actOnce (hf n (Nat.lt_succ_self n)) i

theorem Belongs.acts {op : Operation α} (h : s.Belongs c op) (b : Backend α σ ι) (i n : Nat) :
    ((Crew.act b i)^[n] s).Belongs c op := by
  induction n with
  | zero => exact h
  | succ n ih =>
    rw [Function.iterate_succ_apply']
    rcases act_cases b ((Crew.act b i)^[n] s) i with heq | hm
    · rwa [heq]
    · exact hm.belongs ih

/-- A device that holds a number, which every operation lowers and every slice shows. -/
def countdown : Backend Primitive Nat Unit where
  launch c _ _ d := (d - 1, .ok [.settle c (.ok ())])
  perform _ d := (d, [], none)
  discard _ d := (d, [])
  read _ _ d := .ok [UInt8.ofNat d]

def lowering : Operation Primitive :=
  .loop { name := "w" } ⟨0, 0, 1⟩ { ops := [] } { ops :=
    [.leaf { name := "b" } (.scripted .copy {} .succeed)] } none

def loweringBegun : Crew Primitive Nat Unit :=
  Crew.act countdown 0 (({ world := { device := 2, hosts := #[{ program := { ops := [lowering] } }] } } :
    Crew Primitive Nat Unit).execute 0)

def loweringDone : Crew Primitive Nat Unit := (Crew.act countdown 0)^[40] loweringBegun

theorem loop_runs_loweringDone : ∃ t t' condition body,
    Course countdown ⟨⟨0, 0, []⟩, 0⟩ loweringDone t ∧
      LoopPlan condition body none t' (.ok ()) ∧ t = t' ++ [.settled (.ok ())] := by
  have hbegun : Course countdown ⟨⟨0, 0, []⟩, 0⟩ (({ world := { device := 2, hosts :=
      #[{ program := { ops := [lowering] } }] } } : Crew Primitive Nat Unit).execute 0) [] :=
    .other (.fresh ⟨rfl, by simp, by simp⟩) (by decide +kernel) (by simp) (.execute rfl)
  obtain ⟨t₁, h₁⟩ := hbegun.actOnce (by decide +kernel) 0
  obtain ⟨t, h⟩ := Course.acts (s := loweringBegun) h₁ 0 40 (by decide +kernel)
  have hop : loweringBegun.Belongs ⟨⟨0, 0, []⟩, 0⟩ lowering :=
    ⟨_, List.mem_of_getElem? (i := 0) rfl, rfl⟩
  have hended : .ended ⟨⟨0, 0, []⟩, 0⟩ (.ok ()) ∈ loweringDone.log := by decide +kernel
  obtain ⟨-, -, hsettled, hwhole, -⟩ := Course.loop_runs h (hop.acts countdown 0 40)
  obtain ⟨t', hplan, ht⟩ := hwhole _ ((hsettled _).2 (.inr hended))
  exact ⟨t, t', _, _, h, hplan, ht⟩

end Crew

end Machine

end OpFlow
