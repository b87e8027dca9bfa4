import OpFlow.Proofs.Buffer.Requests
import OpFlow.Proofs.Collective.Changes
import OpFlow.Proofs.CustomCall.Failure
import OpFlow.Proofs.Frame.Strangers
import OpFlow.Proofs.Reduction.Elements

/-!
Which errors operations end with. Every call has errors that it may fail with, among them all that
do not say that something is missing. If a platform has no other error in store, then it comes to
have none, as long as what a starting operation misses, and what its code reports, are errors that
it may fail with.
-/
namespace OpFlow

open Machine (CallKey Effect)

/-! ### Errors of the parts of operations -/

theorem Except.bind_eq_error {ε α β : Type} {r : Except ε α} {f : α → Except ε β} {e : ε}
    (h : r >>= f = .error e) : r = .error e ∨ ∃ x, r = .ok x ∧ f x = .error e := by
  cases r with
  | error e' => exact .inl (congrArg Except.error (Except.error.inj h))
  | ok x => exact .inr ⟨x, rfl, h⟩

theorem Except.exists_of_mapM_eq_error {ε α β : Type} {f : α → Except ε β} {l : List α} {e : ε}
    (h : l.mapM f = .error e) : ∃ x ∈ l, f x = .error e := by
  induction l with
  | nil => cases h
  | cons x l ih =>
    rw [List.mapM_cons] at h
    rcases bind_eq_error h with h | ⟨y, -, h⟩
    · exact ⟨x, List.mem_cons_self, h⟩
    · rcases bind_eq_error h with h | ⟨ys, -, h⟩
      · obtain ⟨z, hz, h⟩ := ih h
        exact ⟨z, List.mem_cons_of_mem _ hz, h⟩
      · cases h

theorem Registry.kind_of_find {α : Type} {r : Registry α} {what name : String} {e : Error}
    (h : r.find what name = .error e) : e.kind = .lookup := by
  unfold find at h
  split at h <;> cases h
  rfl

theorem Exchange.kind_of_result {x : Exchange} {rank : Nat} {blocks : List (List Bytes)} {e : Error}
    (h : x.result rank blocks = .error e) : e.kind = .invalidArgument := by
  have hmap : ∀ {β γ : Type} {f : β → γ} {r : Except Error β}, f <$> r = .error e → r = .error e :=
    fun {_ _ _ r} h => by cases r <;> cases h; rfl
  cases x with
  | allReduce k t => exact Reduction.kind_of_reduceAll (hmap h)
  | allGather | allToAll => cases h
  | reduceScatter k t =>
    rcases Except.bind_eq_error h with h | ⟨whole, -, h⟩
    · exact Reduction.kind_of_reduceAll h
    · have hshard := hmap h
      unfold shard at hshard
      dsimp only at hshard
      split at hshard <;> cases hshard
      rfl
  | permute pairs =>
    simp only [result] at h
    split at h
    · cases h
    · split at h <;> cases h
      rfl

theorem Transport.kind_of_rejected {κ : Type} {t : Transport κ} {x : Exchange} {key : RendezvousKey}
    {rank : Nat} {blocks : List Bytes} {e : Error}
    (h : (t.enter x key rank blocks).2 = .rejected e) : e.kind = .invalidArgument := by
  unfold enter at h
  split at h
  · cases h
    rfl
  · dsimp only at h
    unfold Rendezvous.enter at h
    split at h
    · cases h
      rfl
    · dsimp only at h
      split at h
      · cases h
        rfl
      · unfold Rendezvous.leave at h
        split at h <;> cases h

namespace Platform

variable {kernel : Kernel} {frameOf : Nat → KernelFrame} {e : Error}

theorem exists_of_runThreads {count linear : Nat} {a : Arena}
    (h : (runThreads kernel frameOf count linear a).2 = .error (.error e)) :
    ∃ l a, ((kernel (frameOf l)).runOn a).2 = .error (.error e) := by
  induction count generalizing linear a with
  | zero => cases h
  | succ count ih =>
    rw [runThreads] at h
    split at h
    · exact ih h
    · next heq =>
      cases h
      exact ⟨linear, a, by rw [heq]⟩

theorem exists_of_runAllThreads {count linear : Nat} {first : Option Error} {a : Arena}
    (h : (runAllThreads kernel frameOf count linear first a).2 = .error (.error e))
    (hfirst : ∀ e, first = some e → ∃ l a, ((kernel (frameOf l)).runOn a).2 = .error (.error e)) :
    ∃ l a, ((kernel (frameOf l)).runOn a).2 = .error (.error e) := by
  induction count generalizing linear first a with
  | zero =>
    cases first with
    | none => cases h
    | some e' =>
      cases h
      exact hfirst e rfl
  | succ count ih =>
    rw [runAllThreads] at h
    split at h
    · exact ih h hfirst
    · next a' e' heq =>
      refine ih h fun e₁ he₁ => ?_
      cases first with
      | none => exact Option.some.inj he₁ ▸ ⟨linear, a, by rw [heq]⟩
      | some e₂ => exact hfirst e₁ he₁
    · cases h

end Platform

/-! ### What is in store -/

def Gathering.FailsWithin (A : CallKey → Error → Prop) (g : Gathering) : Prop :=
  ∀ part e, g.firstError = some (part, e) → A g.call e

structure GridRun.FailsWithin (A : CallKey → Error → Prop) (g : GridRun) : Prop where
  gathering : g.gathering.FailsWithin A
  threads : ∀ linear a e,
    ((g.kernel ⟨g.grid.point linear, g.grid, g.arguments, g.results⟩).runOn a).2 =
      .error (.error e) → A g.gathering.call e

namespace Platform

/-- Every error that a platform has in store is one that its operation may fail with. -/
structure FailsWithin (A : CallKey → Error → Prop) (p : Platform) : Prop where
  exchanges : ∀ kind cell e, p.transport.contributions? kind cell = some (.error e) → ∀ c, A c e
  gridRuns : ∀ (i : Nat) g, p.gridRuns[i]? = some g → g.FailsWithin A
  intakes : ∀ (i : Nat) g, p.intakes[i]? = some g → g.FailsWithin A
  deferred : ∀ (i : Nat) c, p.deferred[i]? = some (some c) → ∀ e, A c e

structure Yields (A : CallKey → Error → Prop) (p : Platform) (effects : List (Effect Work)) : Prop where
  platform : p.FailsWithin A
  settles : ∀ c e, .settle c (.error e) ∈ effects → A c e

variable {A : CallKey → Error → Prop} {p q : Platform} {c : CallKey} {info : OpInfo}
  {effects : List (Effect Work)}

theorem FailsWithin.mono {B : CallKey → Error → Prop} (hp : p.FailsWithin A)
    (h : ∀ c e, A c e → B c e) : p.FailsWithin B :=
  ⟨fun k i e he c => h c e (hp.exchanges k i e he c),
    fun i g hg => ⟨fun part e he => h _ e ((hp.gridRuns i g hg).gathering part e he),
      fun l a e he => h _ e ((hp.gridRuns i g hg).threads l a e he)⟩,
    fun i g hg part e he => h _ e (hp.intakes i g hg part e he),
    fun i c hc e => h c e (hp.deferred i c hc e)⟩

theorem FailsWithin.congr (hp : p.FailsWithin A) (htransport : q.transport = p.transport)
    (hgridRuns : q.gridRuns = p.gridRuns) (hintakes : q.intakes = p.intakes)
    (hdeferred : q.deferred = p.deferred) : q.FailsWithin A :=
  ⟨htransport ▸ hp.exchanges, hgridRuns ▸ hp.gridRuns, hintakes ▸ hp.intakes, hdeferred ▸ hp.deferred⟩

theorem FailsWithin.setArena (hp : p.FailsWithin A) (h : Nat) (a : Arena) :
    (p.setArena h a).FailsWithin A := hp.congr rfl rfl rfl rfl

theorem FailsWithin.setGathering (hp : p.FailsWithin A) {intakes : Array Gathering}
    (h : ∀ (i : Nat) g, intakes[i]? = some g → g.FailsWithin A) :
    ({ p with intakes } : Platform).FailsWithin A :=
  ⟨hp.exchanges, hp.gridRuns, h, hp.deferred⟩

theorem FailsWithin.setGridRuns (hp : p.FailsWithin A) {gridRuns : Array GridRun}
    (h : ∀ (i : Nat) g, gridRuns[i]? = some g → g.FailsWithin A) :
    ({ p with gridRuns } : Platform).FailsWithin A :=
  ⟨hp.exchanges, h, hp.intakes, hp.deferred⟩

theorem FailsWithin.setTransport (hp : p.FailsWithin A) {transport : Transport Participant}
    (timers : Timers Expiry) (h : ∀ kind cell e,
      transport.contributions? kind cell = some (.error e) →
        p.transport.contributions? kind cell = some (.error e) ∨ ∀ c, A c e) :
    ({ p with transport, timers } : Platform).FailsWithin A :=
  ⟨fun k i e he c => (h k i e he).elim (fun he => hp.exchanges k i e he c) (· c), hp.gridRuns,
    hp.intakes, hp.deferred⟩

theorem FailsWithin.settles (hp : p.FailsWithin A) (h : ∀ c e, .settle c (.error e) ∉ effects) :
    p.Yields A effects := ⟨hp, fun c e he => absurd he (h c e)⟩

theorem FailsWithin.settle (hp : p.FailsWithin A) {o : Outcome} (ho : ∀ e, o = .error e → A c e) :
    p.Yields A [.settle c o] :=
  ⟨hp, fun c' e he => by
    obtain ⟨rfl, rfl⟩ := Effect.settle.inj (List.mem_singleton.1 he)
    exact ho e rfl⟩

theorem FailsWithin.nothing (hp : p.FailsWithin A) : p.Yields A [] :=
  hp.settles fun _ _ h => by cases h

theorem FailsWithin.succeeds (hp : p.FailsWithin A) {u : Unit} : p.Yields A [.settle c (.ok u)] :=
  hp.settle fun _ h => by cases h

section Steps

variable (hA : ∀ c (e : Error), ¬ e.Missing → A c e)
include hA

theorem of_ne {e : Error} (h : e.kind ≠ .configuration) (c : CallKey) : A c e :=
  hA c e fun hm => h hm.kind

theorem of_kind {e : Error} {k : ErrorKind} (he : e.kind = k) (hk : k ≠ .configuration)
    (c : CallKey) : A c e := of_ne hA (he ▸ hk) c

omit hA in
/-- A part may end as its operation may fail. -/
theorem failsWithin_ended {g : Gathering} (hg : g.FailsWithin A) (part : Nat) {o : Outcome}
    (ho : ∀ e, o = .error e → A g.call e) : (g.ended part o).FailsWithin A := by
  intro k e he
  change A g.call e
  cases o with
  | ok u => exact hg k e he
  | error e' =>
    cases hfirst : g.firstError with
    | none =>
      simp only [Gathering.ended, hfirst, Option.some.injEq, Prod.mk.injEq] at he
      exact he.2 ▸ ho e' rfl
    | some first =>
      obtain ⟨k', e''⟩ := first
      simp only [Gathering.ended, hfirst] at he
      split at he <;> obtain ⟨-, rfl⟩ := Prod.mk.inj (Option.some.inj he)
      · exact ho _ rfl
      · exact hg k' _ hfirst

theorem settles_gathered {g : Gathering} (hg : g.FailsWithin A) (c : CallKey) (e : Error)
    (h : .settle c (.error e) ∈ gathered g) : A c e := by
  unfold gathered at h
  split at h
  case h_2 => cases h
  case h_1 o ho =>
    obtain ⟨rfl, rfl⟩ := Effect.settle.inj (List.mem_singleton.1 h)
    unfold Gathering.outcome? at ho
    split at ho
    · cases ho
    · split at ho
      · cases ho
        exact of_ne hA (fun h => by cases h) _
      · split at ho
        · next part e' hfirst =>
          cases ho
          exact hg part e hfirst
        · cases ho

/-! #### Starting operations -/

omit hA in
theorem FailsWithin.onArena (hp : p.FailsWithin A) (h : Nat) {f : Arena → Except Error Arena}
    (hf : ∀ e, f (p.arenaOf h) = .error e → A c e) :
    (p.onArena h f).1.FailsWithin A ∧ ∀ e, (p.onArena h f).2 = .error e → A c e := by
  unfold Platform.onArena
  cases heq : f (p.arenaOf h) with
  | ok a => exact ⟨hp.setArena h a, nofun⟩
  | error e => exact ⟨hp, fun e' he => Except.error.inj he ▸ hf e heq⟩

omit hA in
theorem FailsWithin.endedBy (hp : p.FailsWithin A) {f : Arena → Except Error Arena}
    (hf : ∀ e, f (p.arenaOf c.run.host) = .error e → A c e) :
    (p.endedBy c f).1.Yields A ((p.endedBy c f).2.toOption.getD []) :=
  let h := hp.onArena c.run.host hf
  h.1.settle h.2

omit hA in
theorem FailsWithin.endedWith (hp : p.FailsWithin A) (a : Arena) {r : Except Fault Unit}
    (hr : ∀ e, r = .error (.error e) → A c e) :
    (p.endedWith c a r).1.Yields A ((p.endedWith c a r).2.toOption.getD []) := by
  rw [endedWith_eq]
  rcases r with (e | text) | u
  · exact (hp.setArena _ a).settle fun e' he => hr e' (by rw [Except.error.inj he])
  · exact (hp.setArena _ a).nothing
  · exact (hp.setArena _ a).succeeds

theorem FailsWithin.launchKernel (hp : p.FailsWithin A) {name : String} {arguments results : List Slice}
    {grid : Grid} (hnone : ∀ e, ¬ (Primitive.kernel name arguments results grid).Misses
      (p.contextOf c.run.host) e)
    (hreports : ∀ e, Primitive.Reports (p.contextOf c.run.host) e
      (.kernel name arguments results grid) → A c e) :
    (p.launchKernel c name arguments results grid).1.Yields A
      ((p.launchKernel c name arguments results grid).2.toOption.getD []) := by
  cases hctx : (p.contextOf c.run.host).kernels with
  | none => exact absurd (.part (x := .kernels) rfl (by simp [RunContext.has, hctx])) (hnone _)
  | some ks =>
    have hrequire : (p.contextOf c.run.host).requireKernels = .ok ks := by
      rw [RunContext.requireKernels, hctx]
    cases hfind : Kernel.find ks name with
    | error e =>
      rw [launchKernel_of_error (e := e) (by rw [hrequire]; exact hfind)]
      exact hp.settle fun e' he => Except.error.inj he ▸
        of_kind hA (Registry.kind_of_find hfind) (by decide) c
    | ok kernel =>
      have hthreads : ∀ linear a e,
          ((kernel ⟨grid.point linear, grid, arguments, results⟩).runOn a).2 = .error (.error e) →
            A c e := fun linear a e he => hreports e (.kernel hctx hfind he)
      have hlookUp : ((p.contextOf c.run.host).requireKernels >>= fun ks => Kernel.find ks name) =
          .ok kernel := by
        rw [hrequire]
        exact hfind
      rw [launchKernel_of_find hlookUp]
      unfold startThreads
      split
      · refine hp.endedWith _ fun e he => ?_
        obtain ⟨l, a, h⟩ := exists_of_runAllThreads he fun e h => by cases h
        exact hthreads l a e h
      · refine ⟨hp.setGridRuns fun i g hg => ?_, fun c' e he => ?_⟩
        · rw [Array.getElem?_push] at hg
          split at hg
          · obtain rfl := Option.some.inj hg
            refine ⟨fun part e h => ?_, hthreads⟩
            cases h
          · exact hp.gridRuns i g hg
        · obtain ⟨linear, -, heq⟩ := List.mem_map.1 he
          cases heq
      · refine hp.endedWith _ fun e he => ?_
        obtain ⟨l, a, h⟩ := exists_of_runThreads he
        exact hthreads l a e h

omit hA in
theorem FailsWithin.modifyHost (hp : p.FailsWithin A) (h : Nat) (f : HostState → HostState) :
    (p.modifyHost h f).FailsWithin A := hp.congr rfl rfl rfl rfl

theorem FailsWithin.fill (hp : p.FailsWithin A) (t : FeedTaker) (bytes : Bytes) :
    (p.fill t bytes).1.Yields A (p.fill t bytes).2 := by
  cases hg : p.intakes[t.intake]? with
  | none =>
    rw [Platform.fill, hg]
    exact hp.nothing
  | some g =>
    have hwrite : (p.writeFed g.call.run.host t.destination bytes).1.FailsWithin A ∧
        ∀ e, (p.writeFed g.call.run.host t.destination bytes).2 = .error e → A g.call e := by
      unfold writeFed
      split
      · refine ⟨hp, fun e he => ?_⟩
        cases he
        exact of_ne hA (fun h => by cases h) _
      · exact hp.onArena _ fun e he => of_kind hA (Arena.kind_of_write he) (by decide) _
    have hg' := failsWithin_ended (hp.intakes _ g hg) t.part hwrite.2
    rw [fill_of_some hg]
    refine ⟨hwrite.1.setGathering fun i g' hi => ?_, settles_gathered hA hg'⟩
    rw [Array.getElem?_setIfInBounds] at hi
    split at hi
    · split at hi
      · exact Option.some.inj hi ▸ hg'
      · cases hi
    · exact hwrite.1.intakes i g' hi

theorem FailsWithin.serve (hp : p.FailsWithin A)
    (act : Feed FeedTaker → Feed FeedTaker × Option (FeedTaker × Bytes)) (h : Nat) :
    (p.serve act h).1.Yields A (p.serve act h).2 := by
  unfold Platform.serve
  split
  · exact hp.nothing
  · dsimp only
    split
    · exact (hp.modifyHost _ _).fill hA _ _
    · exact (hp.modifyHost _ _).nothing

theorem FailsWithin.takeAll (hp : p.FailsWithin A) (h intake part : Nat) (destinations : List Slice) :
    (p.takeAll h intake part destinations).1.Yields A (p.takeAll h intake part destinations).2 := by
  induction destinations generalizing p part with
  | nil => exact hp.nothing
  | cons destination rest ih =>
    have hone := hp.serve hA (taking ⟨intake, part, destination⟩) h
    have hrest := ih hone.platform (part + 1)
    rw [takeAll_cons]
    exact ⟨hrest.platform, fun c e he =>
      (List.mem_append.1 he).elim (hone.settles c e) (hrest.settles c e)⟩

theorem FailsWithin.launchInfeed (hp : p.FailsWithin A) {destinations : List Slice}
    (hnone : ∀ e, (p.contextOf c.run.host).requireFeeds ≠ .error e) :
    (p.launchInfeed c destinations).1.Yields A ((p.launchInfeed c destinations).2.toOption.getD []) := by
  unfold Platform.launchInfeed
  split
  · next e he => exact absurd he (hnone e)
  · split
    · exact hp.succeeds
    · refine FailsWithin.takeAll hA (hp.setGathering fun i g hg => ?_) _ _ _ _
      rw [Array.getElem?_push] at hg
      split at hg
      · obtain rfl := Option.some.inj hg
        exact nofun
      · exact hp.intakes i g hg

theorem FailsWithin.launchOutfeed (hp : p.FailsWithin A) {sources : List Slice}
    (hnone : ∀ e, (p.contextOf c.run.host).requireFeeds ≠ .error e) :
    (p.launchOutfeed c sources).1.Yields A ((p.launchOutfeed c sources).2.toOption.getD []) := by
  unfold Platform.launchOutfeed
  dsimp only
  split
  · next e he =>
    refine hp.settle fun e' he' => ?_
    obtain rfl := Except.error.inj he'
    rcases Except.bind_eq_error he with he | ⟨-, -, he⟩
    · exact absurd he (hnone e)
    · obtain ⟨s, -, hs⟩ := Except.exists_of_mapM_eq_error he
      exact of_kind hA (Arena.kind_of_read hs) (by decide) c
  · next buffers _ =>
    have hput : ∀ {q : Platform}, q.FailsWithin A →
        (buffers.foldl (fun p b => p.putOut c.run.host b) q).FailsWithin A := by
      clear * -
      induction buffers with
      | nil => exact fun hq => hq
      | cons b buffers ih => exact fun hq => ih (hq.modifyHost _ _)
    exact (hput hp).succeeds

/-- A place is not found for want of the part or of the device, or for a reason of its own. -/
theorem FailsWithin.launchPlaceId (hp : p.FailsWithin A) {axis : PlaceAxis} {destination : Slice}
    (hnone : ∀ e, ¬ (Primitive.placeId axis destination).Misses (p.contextOf c.run.host) e) :
    (p.launchPlaceId c axis destination).1.Yields A
      ((p.launchPlaceId c axis destination).2.toOption.getD []) := by
  have huses : (Primitive.placeId axis destination).uses .collective := by cases axis <;> rfl
  refine hp.endedBy fun e he => ?_
  rcases Except.bind_eq_error he with he | ⟨number, -, he⟩
  · rcases Except.bind_eq_error he with he | ⟨ctx, hctx, he⟩
    · exact absurd (.of_collective huses he) (hnone e)
    rcases Except.bind_eq_error he with he | ⟨place, -, he⟩
    · exact absurd (.of_device huses hctx he) (hnone e)
    split at he
    · cases he
      exact of_ne hA (fun h => by cases h) _
    · cases he
  · exact of_kind hA (Arena.kind_of_write he) (by decide) c

theorem entry_error {op : Collective} {e : Error}
    (hnone : ∀ e, ¬ (Primitive.collective op).Misses (p.contextOf c.run.host) e)
    (h : p.entry c info op = .error e) : A c e := by
  have huses : (Primitive.collective op).uses .collective := by
    obtain ⟨exchange, _⟩ := op
    cases exchange <;> rfl
  have hreplica : ∀ {text : String}, text.toList.head? = some 'r' → A c (.configuration text) :=
    fun {text} htext => hA c _ (Error.Missing.not_of_head htext)
  rcases Except.bind_eq_error h with h | ⟨ctx, hctx, h⟩
  · exact absurd (.of_collective huses h) (hnone e)
  rcases Except.bind_eq_error h with h | ⟨m, -, h⟩
  · rcases Except.bind_eq_error h with h | ⟨me, -, h⟩
    · exact absurd (.of_device huses hctx h) (hnone e)
    rcases Except.bind_eq_error h with h | ⟨group, -, h⟩
    · unfold Collective.groupOf at h
      split at h
      · cases h
      · split at h <;> cases h
        exact hreplica (by simp)
    rcases Except.bind_eq_error h with h | ⟨devices, -, h⟩
    · obtain ⟨replica, -, h⟩ := Except.exists_of_mapM_eq_error h
      unfold Collective.deviceOf at h
      split at h <;> cases h
      exact hreplica (by simp)
    split at h <;> cases h
    exact of_ne hA (fun h => by cases h) _
  rcases Except.bind_eq_error h with h | ⟨input, -, h⟩
  · exact of_kind hA (Arena.kind_of_read h) (by decide) c
  rcases Except.bind_eq_error h with h | ⟨blocks, -, h⟩
  · unfold Collective.blocks at h
    split at h
    · split at h <;> cases h
      exact of_ne hA (fun h => by cases h) _
    · cases h
  · cases h

theorem FailsWithin.launchCollective (hp : p.FailsWithin A) {op : Collective}
    (hnone : ∀ e, ¬ (Primitive.collective op).Misses (p.contextOf c.run.host) e) :
    (p.launchCollective c info op).1.Yields A ((p.launchCollective c info op).2.toOption.getD []) := by
  cases hentry : p.entry c info op with
  | error e =>
    rw [launchCollective_of_error p hentry]
    exact hp.settle fun e' he => Except.error.inj he ▸ entry_error hA hnone hentry
  | ok e =>
    obtain ⟨timers, heq⟩ := launchCollective_of_ok p hentry
    rw [heq]
    refine ⟨hp.setTransport timers fun kind cell e' he' => .inl ?_, fun c' e' he' => ?_⟩
    · exact ((p.transport.changedAt_enter ..).result kind cell).symm.trans he'
    · change _ ∈ joined c e op.destination _ at he'
      cases hentrance : (p.transport.enter e.exchange e.key e.rank e.blocks).2 with
      | rejected error =>
        rw [hentrance] at he'
        obtain ⟨rfl, hsame⟩ := Effect.settle.inj (List.mem_singleton.1 he')
        obtain rfl := Except.error.inj hsame
        exact of_kind hA (Transport.kind_of_rejected hentrance) (by decide) _
      | waiting cell isNew =>
        rw [hentrance] at he'
        simp [joined] at he'
      | filled cell promise =>
        rw [hentrance] at he'
        cases promise <;> simp [joined] at he'

theorem FailsWithin.launchCustomCall (hp : p.FailsWithin A) {target config : String}
    {operands results : List Slice} (hnone : ∀ e,
      ¬ (Primitive.customCall target config operands results).Misses (p.contextOf c.run.host) e) :
    (p.launchCustomCall c target config operands results).1.Yields A
      ((p.launchCustomCall c target config operands results).2.toOption.getD []) := by
  cases hfind : handlerOf (p.contextOf c.run.host) target with
  | error e =>
    rw [launchCustomCall_of_error hfind]
    refine hp.settle fun e' he => ?_
    obtain rfl := Except.error.inj he
    rcases Except.bind_eq_error hfind with h | ⟨ctx, -, h⟩
    · obtain ⟨hx, rfl⟩ := RunContext.requireCustomCall_eq_error_iff.1 h
      exact absurd (.part (x := .customCall) rfl hx) (hnone _)
    rcases Except.bind_eq_error h with h | ⟨handler, -, h⟩
    · exact of_kind hA (Registry.kind_of_find h) (by decide) c
    · cases h
  | ok found =>
    obtain ⟨ctx, handler⟩ := found
    rw [launchCustomCall_of_ok hfind]
    dsimp only
    unfold endCall
    generalize (handler _).beside _ _ _ = run
    rcases run with ⟨a, allocator, (e | text) | u⟩
    · refine ((hp.setArena _ _).modifyHost _ _).settle fun e' he => ?_
      obtain rfl := Except.error.inj he
      exact of_kind hA (Handler.tellsOf_wrapError target e).kind (by decide) c
    · exact ((hp.setArena _ _).modifyHost _ _).nothing
    · exact ((hp.setArena _ _).modifyHost _ _).succeeds

omit hA in
theorem FailsWithin.launchScript (hp : p.FailsWithin A) {kind : OpKind} {footprint : Footprint}
    {script : Script} (hc : ∀ e, Primitive.Reports (p.contextOf c.run.host) e
      (.scripted kind footprint script) → A c e) (hwrite : ∀ e, e.kind = .invalidArgument → A c e) :
    (p.launchScript c script).1.Yields A ((p.launchScript c script).2.toOption.getD []) := by
  cases script with
  | succeed => exact hp.succeeds
  | write slice bytes => exact hp.endedBy fun e he => hwrite e (Arena.kind_of_write he)
  | fail e => exact hp.settle fun e' he => Except.error.inj he ▸ hc e .failing
  | panic text => exact hp.nothing
  | defer =>
    refine ⟨⟨hp.exchanges, hp.gridRuns, hp.intakes, fun i d hd e => ?_⟩, nofun⟩
    change (p.deferred.push (some c))[i]? = _ at hd
    rw [Array.getElem?_push] at hd
    split at hd
    · cases hd
      exact hc e .deferred
    · exact hp.deferred i d hd e

/-- The start of an operation. If it fails because something is missing, then the operation misses
this, or the code that it runs has reported it. -/
theorem FailsWithin.launch (hp : p.FailsWithin A) {op : Primitive}
    (hmisses : ∀ e, op.Misses (p.contextOf c.run.host) e → A c e)
    (hreports : ∀ e, op.Reports (p.contextOf c.run.host) e → A c e) :
    (launch c info op p).1.Yields A ((launch c info op p).2.toOption.getD []) := by
  by_cases hmissing : ∃ e, op.Misses (p.contextOf c.run.host) e
  · obtain ⟨e, he⟩ := hmissing
    rw [launch_of_misses p c info he]
    exact hp.settle fun e' he' => Except.error.inj he' ▸ hmisses e he
  have hnone : ∀ e, ¬ op.Misses (p.contextOf c.run.host) e := fun e he => hmissing ⟨e, he⟩
  have hfeeds : op.uses .feeds → ∀ e, (p.contextOf c.run.host).requireFeeds ≠ .error e :=
    fun hop e h => hnone _ (.part hop (RunContext.requireFeeds_eq_error_iff.1 h).1)
  cases op with
  | copy src dst => exact hp.endedBy fun e he => of_kind hA (Arena.kind_of_copy he) (by decide) c
  | kernel name arguments results grid => exact hp.launchKernel hA hnone hreports
  | infeed destinations token => exact hp.launchInfeed hA (hfeeds rfl)
  | outfeed sources token => exact hp.launchOutfeed hA (hfeeds rfl)
  | advanceRandom state delta generator =>
    have hmoved : ∀ generators, ({ p with generators } : Platform).FailsWithin A := fun _ =>
      hp.congr rfl rfl rfl rfl
    exact (hmoved _).endedBy fun e he => of_kind hA (Arena.kind_of_write he) (by decide) c
  | placeId axis destination => exact hp.launchPlaceId hA hnone
  | collective op => exact hp.launchCollective hA hnone
  | customCall target config operands results => exact hp.launchCustomCall hA hnone
  | scripted kind footprint script =>
    exact hp.launchScript hreports fun e he => of_kind hA he (by decide) c

/-! #### Going on with operations -/

omit hA in
theorem receive_eq_error {received : Except Error (Option Bytes)} {destination : Slice} {a : Arena}
    {e : Error} (h : (Arena.receive received destination a).2 = .error (.error e)) :
    received = .error e ∨ e.kind = .invalidArgument := by
  have hattempt : ∀ {f : Arena → Except Error Arena},
      ((Arena.attempt f a).2.mapError Fault.error) = .error (.error e) → f a = .error e := fun {f} h => by
    unfold Arena.attempt at h
    cases hf : f a with
    | ok a' =>
      rw [hf] at h
      cases h
    | error e' =>
      rw [hf] at h
      cases h
      rfl
  unfold Arena.receive at h
  split at h
  · cases h
    exact .inl rfl
  · dsimp only at h
    split at h
    · cases h
    · have hchange := hattempt h
      refine .inr ?_
      split at hchange
      · exact Arena.kind_of_write hchange
      · exact Arena.kind_of_modify hchange

theorem FailsWithin.received (hp : p.FailsWithin A) {t : Participant} {e : Error}
    (h : p.received t = .error e) : A t.call e := by
  unfold Platform.received at h
  split at h
  · next contributions heq =>
    cases contributions with
    | error e' =>
      cases h
      exact hp.exchanges _ _ e heq _
    | ok blocks => exact of_kind hA (Exchange.kind_of_result h) (by decide) _
  · cases h
    exact of_ne hA (fun h => by cases h) _

theorem settles_abandoned (text : String) (ts : List Participant) (c : CallKey) (e : Error)
    (h : .settle c (.error e) ∈ abandoned text ts) : A c e := by
  fun_induction abandoned with
  | case1 => cases h
  | case2 t =>
    obtain ⟨-, heq⟩ := Effect.settle.inj (List.mem_singleton.1 h)
    exact Except.error.inj heq ▸ of_ne hA (fun h => by cases h) _
  | case3 t rest hne ih =>
    rcases List.mem_cons.1 h with h | h
    · obtain ⟨-, heq⟩ := Effect.settle.inj h
      exact Except.error.inj heq ▸ of_ne hA (fun h => by cases h) _
    · exact ih h

theorem FailsWithin.handOut (hp : p.FailsWithin A) (ts : List Participant) :
    (p.handOut ts).1.Yields A (p.handOut ts).2 := by
  cases ts with
  | nil => exact hp.nothing
  | cons t rest =>
    rw [handOut_cons]
    refine ⟨hp.setArena _ _, fun c e he => ?_⟩
    cases hr : (Arena.receive (p.received t) t.destination (p.arenaOf t.call.run.host)).2 with
    | ok u => simp [handedOut, hr] at he
    | error fault =>
      cases fault with
      | error e' =>
        obtain ⟨rfl, rfl⟩ : c = t.call ∧ e = e' := by simpa [handedOut, hr] using he
        rcases receive_eq_error hr with h | h
        · exact hp.received hA h
        · exact of_kind hA h (by decide) _
      | panic text =>
        rw [hr] at he
        exact settles_abandoned hA text _ c e he

theorem FailsWithin.setGridRun (hp : p.FailsWithin A) {i : Nat} {g : GridRun}
    (hg : p.gridRuns[i]? = some g) {gathering : Gathering} (hcall : gathering.call = g.gathering.call)
    (h : gathering.FailsWithin A) :
    ({ p with gridRuns := p.gridRuns.setIfInBounds i { g with gathering } } : Platform).Yields A
      (gathered gathering) := by
  refine ⟨hp.setGridRuns fun j g' hj => ?_, settles_gathered hA h⟩
  rw [Array.getElem?_setIfInBounds] at hj
  split at hj
  · split at hj
    · obtain rfl := Option.some.inj hj
      exact ⟨h, hcall ▸ (hp.gridRuns _ g hg).threads⟩
    · cases hj
  · exact hp.gridRuns j g' hj

theorem FailsWithin.runThread (hp : p.FailsWithin A) (gridRun linear : Nat) :
    (p.runThread gridRun linear).1.Yields A (p.runThread gridRun linear).2.1 := by
  unfold Platform.runThread
  split
  · exact hp.nothing
  · next g hg =>
    have hthreads := (hp.gridRuns _ g hg).threads linear (p.arenaOf g.gathering.call.run.host)
    dsimp only
    generalize (g.kernel ⟨g.grid.point linear, g.grid, g.arguments, g.results⟩).runOn
      (p.arenaOf g.gathering.call.run.host) = run at hthreads
    obtain ⟨a, (e | text) | u⟩ := run
    · exact (hp.setArena _ a).setGridRun hA hg rfl
        (failsWithin_ended (hp.gridRuns _ g hg).gathering linear fun e' he =>
          Except.error.inj he ▸ hthreads e rfl)
    · exact (hp.setArena _ a).setGridRun hA hg rfl (hp.gridRuns _ g hg).gathering
    · exact (hp.setArena _ a).setGridRun hA hg rfl
        (failsWithin_ended (hp.gridRuns _ g hg).gathering linear nofun)

theorem FailsWithin.perform (hp : p.FailsWithin A) (x : Work) :
    (backend.perform x p).1.Yields A (backend.perform x p).2.1 := by
  cases x with
  | attend t =>
    change (p.attend t).1.Yields A (p.attend t).2
    cases h : p.transport.contributions? t.exchange.kind t.cell with
    | some r => exact attend_of_settled p h ▸ hp.handOut hA [t]
    | none =>
      rw [attend_of_pending p h]
      refine (hp.setTransport p.timers fun kind cell e he => .inl ?_).nothing
      exact (p.transport.result?_register ..).symm.trans he
  | resolve values t =>
    refine (hp.setTransport p.timers fun kind cell e he => .inl ?_).settles fun _ _ he => by
      cases List.mem_singleton.1 he
    rcases p.transport.result?_settle_or t.exchange.kind t.cell values kind cell with h | h
    · exact h.symm.trans he
    · cases h.symm.trans he
  | handOut ts => exact hp.handOut hA ts
  | thread gridRun linear => exact hp.runThread hA gridRun linear

theorem FailsWithin.discard (hp : p.FailsWithin A) (x : Work) :
    (backend.discard x p).1.Yields A (backend.discard x p).2 := by
  cases x with
  | attend t | resolve values t =>
    exact hp.settle fun e he => Except.error.inj he ▸ of_ne hA (fun h => by cases h) _
  | handOut ts =>
    refine ⟨hp, fun c e he => ?_⟩
    obtain ⟨t, -, heq⟩ := List.mem_map.1 he
    obtain ⟨-, heq⟩ := Effect.settle.inj heq
    exact Except.error.inj heq ▸ of_ne hA (fun h => by cases h) _
  | thread gridRun linear =>
    change (p.loseThread gridRun).1.Yields A (p.loseThread gridRun).2
    unfold loseThread
    split
    · exact hp.nothing
    · next g hg => exact hp.setGridRun hA hg rfl (hp.gridRuns _ g hg).gathering

theorem FailsWithin.occasion {change : Platform → Platform × List (Effect Work)}
    (hp : p.FailsWithin A) (h : Occasion change) : (change p).1.Yields A (change p).2 := by
  cases h with
  | time pass => exact (hp.setTransport (pass p.timers) fun kind cell e he => .inl he).nothing
  | expire x =>
    refine (hp.setTransport p.timers fun kind cell e he => ?_).settles fun _ _ he => by
      cases List.mem_singleton.1 he
    rcases p.transport.result?_expire_or x kind cell with h | ⟨e', h, hkind⟩
    · exact .inl (h.symm.trans he)
    · obtain rfl : e' = e := Except.error.inj (Option.some.inj (h.symm.trans he))
      exact .inr (of_kind hA hkind (by decide))
  | putIn h bytes =>
    dsimp only
    rw [putIn_eq]
    exact hp.serve hA _ h
  | takeOut h => exact (hp.modifyHost h _).nothing
  | endDeferred i o =>
    dsimp only [Platform.endDeferred]
    split
    · next c hc =>
      have hi : p.deferred[i]? = some (some c) := by simpa [Option.join_eq_some_iff] using hc
      have hrest : ({ p with deferred := p.deferred.setIfInBounds i none } : Platform).FailsWithin A := by
        refine ⟨hp.exchanges, hp.gridRuns, hp.intakes, fun j d hd => ?_⟩
        rw [Array.getElem?_setIfInBounds] at hd
        split at hd
        · split at hd <;> cases hd
        · exact hp.deferred j d hd
      exact hrest.settle fun e _ => hp.deferred i c hi e
    · exact hp.nothing

end Steps

/-- Nothing has happened yet on the platform, and nothing is left of what happened before. -/
structure IsUnused (p : Platform) : Prop extends p.IsIdle where
  intakes : p.intakes = #[]
  exchanges : ∀ kind cell, p.transport.contributions? kind cell = none

theorem IsUnused.failsWithin (hp : p.IsUnused) : p.FailsWithin A where
  exchanges kind cell e he := by cases (hp.exchanges kind cell).symm.trans he
  gridRuns i g hg := by simp [hp.gridRuns] at hg
  intakes i g hg := by simp [hp.intakes] at hg
  deferred i c hc := by simp [hp.deferred] at hc

end Platform

end OpFlow
