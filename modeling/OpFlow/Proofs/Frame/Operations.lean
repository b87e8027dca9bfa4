import OpFlow.Proofs.Frame.Peers
import OpFlow.Proofs.Spmd.Passing

/-!
What operations do is steady under the uses that they declare: the start of each operation, and all
that it leaves behind, a place in an exchange, a request for a buffer or the threads of a kernel.
Whatever is left behind is kept or handed out with slices that its host's uses let it write.
-/
namespace OpFlow

open Machine (CallKey Effect)

/-- The kernels and handlers of a run touch buffers only through their frames. -/
structure RunContext.Framed (c : RunContext) : Prop where
  kernels : ∀ ks, c.kernels = some ks → ∀ entry ∈ ks.entries, Kernel.Framed entry.2
  handlers : ∀ ctx, c.customCall = some ctx → ∀ entry ∈ ctx.handlers.entries,
    Handler.Framed entry.2

theorem Registry.exists_mem_of_find {α : Type} {r : Registry α} {what name : String} {a : α}
    (h : r.find what name = .ok a) : (name, a) ∈ r.entries := by
  unfold find at h
  split at h
  · next hfind =>
    obtain rfl := Except.ok.inj h
    obtain ⟨l, l', heq, -⟩ := List.lookup_eq_some_iff.1 hfind
    rw [heq]
    simp
  · cases h

theorem getElem?_push_of_some {α : Type} {a : Array α} {i : Nat} {x y : α} (h : a[i]? = some x) :
    (a.push y)[i]? = some x := by
  obtain ⟨hlt, -⟩ := Array.getElem?_eq_some_iff.1 h
  rw [Array.getElem?_push, if_neg (Nat.ne_of_lt hlt)]
  exact h

/-- The operation is one of the named kinds that do something. -/
def Primitive.IsGenuine : Primitive → Prop
  | .scripted _ _ _ => False
  | .copy _ _ | .kernel _ _ _ _ | .infeed _ _ | .outfeed _ _ | .advanceRandom _ _ _ | .placeId _ _
  | .collective _ | .customCall _ _ _ _ => True

def Participant.Declared (U : Nat → Set BufferUse) (t : Participant) : Prop :=
  .write t.destination ∈ U t.call.run.host

def Work.Declared (U : Nat → Set BufferUse) (x : Work) : Prop := ∀ t ∈ x.participants, t.Declared U

/-- The threads of a kernel keep to a frame whose slices may be read and written. -/
structure GridRun.Declared (U : Nat → Set BufferUse) (g : GridRun) : Prop where
  kernel : g.kernel.Framed
  arguments : ∀ s ∈ g.arguments, .read s ∈ U g.gathering.call.run.host
  results : ∀ s ∈ g.results, .write s ∈ U g.gathering.call.run.host

def FeedTaker.Declared (U : Nat → Set BufferUse) (intakes : Array Gathering) (t : FeedTaker) : Prop :=
  ∃ g, intakes[t.intake]? = some g ∧ .write t.destination ∈ U g.call.run.host

def Platform.KeepsIntakes (p p' : Platform) : Prop :=
  ∀ (i : Nat) g, p.intakes[i]? = some g → ∃ g', p'.intakes[i]? = some g' ∧ g'.call = g.call

/-- Whatever is in flight on a platform may write where it is going to write. -/
structure Platform.Custody (U : Nat → Set BufferUse) (p : Platform) : Prop where
  waiting : ∀ t ∈ p.transport.waiting, t.Declared U
  gridRuns : ∀ (i : Nat) g, p.gridRuns[i]? = some g → g.Declared U
  takers : ∀ k s, p.host? k = some s → ∀ t ∈ s.feeds.infeed.waiters, t.Declared U p.intakes

/-! ### User code -/

variable {U : Set BufferUse}

theorem Kernel.Framed.obeys {k : Kernel} (hk : k.Framed) {f : KernelFrame}
    (harguments : ∀ s ∈ f.arguments, .read s ∈ U) (hresults : ∀ s ∈ f.results, .write s ∈ U) :
    Arena.Obeys U (k f).runOn :=
  ((hk f).obeys harguments hresults ()).map Prod.snd

namespace Platform

section Threads

variable {kernel : Kernel} {frameOf : Nat → KernelFrame} {arguments results : List Slice}

def nextThreads (kernel : Kernel) (frameOf : Nat → KernelFrame) (count linear : Nat) :
    Except Fault Unit → Arena → Arena × Except Fault Unit
  | .ok () => runThreads kernel frameOf count linear
  | .error fault => fun a => (a, .error fault)

/-- How all threads from `linear` on follow one that has ended. -/
def nextOfAllThreads (kernel : Kernel) (frameOf : Nat → KernelFrame) (count linear : Nat)
    (first : Option Error) : Except Fault Unit → Arena → Arena × Except Fault Unit
  | .ok () => runAllThreads kernel frameOf count linear first
  | .error (.error e) => runAllThreads kernel frameOf count linear (first <|> some e)
  | .error (.panic text) => fun a => (a, .error (.panic text))

theorem obeys_runThreads (hk : ∀ i, Arena.Obeys U (kernel (frameOf i)).runOn) (count linear : Nat) :
    Arena.Obeys U (runThreads kernel frameOf count linear) := by
  induction count generalizing linear with
  | zero => exact .pure U _
  | succ count ih =>
    refine .andThen (nextThreads kernel frameOf count (linear + 1)) (hk linear) (fun r => ?_)
      fun a => ?_
    · cases r with
      | error fault => exact .pure U _
      | ok u => exact ih _
    · rw [runThreads]
      rcases (kernel (frameOf linear)).runOn a with ⟨a', fault | u⟩ <;> rfl

theorem obeys_runAllThreads (hk : ∀ i, Arena.Obeys U (kernel (frameOf i)).runOn)
    (count linear : Nat) (first : Option Error) :
    Arena.Obeys U (runAllThreads kernel frameOf count linear first) := by
  induction count generalizing linear first with
  | zero => cases first <;> exact .pure U _
  | succ count ih =>
    refine .andThen (nextOfAllThreads kernel frameOf count (linear + 1) first) (hk linear)
      (fun r => ?_) fun a => ?_
    · rcases r with (e | text) | u
      · exact ih _ _
      · exact .pure U _
      · exact ih _ _
    · rw [runAllThreads]
      rcases (kernel (frameOf linear)).runOn a with ⟨a', (e | text) | u⟩ <;> rfl

end Threads

section Steady

variable {U : Nat → Set BufferUse} {p : Platform} {c : CallKey} {info : OpInfo}

theorem steady_onArena {h : Nat} {k : Arena → Except Error Arena}
    (hk : Arena.Obeys (U h) (Arena.attempt k)) : Steady U p fun q => q.onArena h k :=
  (Steady.arena hk).congr fun q _ => q.onArena_eq h k

theorem steady_endedBy {k : Arena → Except Error Arena}
    (hk : Arena.Obeys (U c.run.host) (Arena.attempt k)) : Steady U p fun q => q.endedBy c k :=
  (steady_onArena hk).map fun o => Except.ok [Effect.settle c o]

def endingOf (c : CallKey) : Except Fault Unit → Except String (List (Effect Work))
  | .ok () => .ok [.settle c (.ok ())]
  | .error (.error e) => .ok [.settle c (.error e)]
  | .error (.panic text) => .error text

theorem endedWith_eq (p : Platform) (c : CallKey) (a : Arena) (r : Except Fault Unit) :
    p.endedWith c a r = (p.setArena c.run.host a, endingOf c r) := by
  rcases r with (e | text) | u <;> rfl

theorem steady_endedWith {g : Arena → Arena × Except Fault Unit}
    (hg : Arena.Obeys (U c.run.host) g) : Steady U p fun q =>
      q.endedWith c (g (q.arenaOf c.run.host)).1 (g (q.arenaOf c.run.host)).2 :=
  ((Steady.arena hg).map (endingOf c)).congr fun q _ => endedWith_eq q c _ _

theorem framed_of_find {name : String} {kernel : Kernel} (hctx : (p.contextOf c.run.host).Framed)
    (h : ((p.contextOf c.run.host).requireKernels >>= fun ks => Kernel.find ks name) =
      .ok kernel) : kernel.Framed := by
  unfold RunContext.requireKernels at h
  split at h
  · next ks hks => exact hctx.kernels ks hks _ (Registry.exists_mem_of_find h)
  · cases h

/-- Starts the threads of a kernel in some way. -/
def startThreads (mode : ThreadMode) (kernel : Kernel) (c : CallKey) (arguments results : List Slice)
    (grid : Grid) (p : Platform) : Started :=
  let frameOf := fun linear => ⟨grid.point linear, grid, arguments, results⟩
  let a := p.arenaOf c.run.host
  match mode, decide (1 < grid.count) with
  | .inline, true =>
    p.endedWith c (runAllThreads kernel frameOf grid.count 0 none a).1
      (runAllThreads kernel frameOf grid.count 0 none a).2
  | .onRunner runner, true =>
    let gathering := { call := c, remaining := grid.count }
    ({ p with gridRuns := p.gridRuns.push ⟨gathering, kernel, arguments, results, grid⟩ },
      .ok ((List.range grid.count).map fun linear =>
        .submit runner (.thread p.gridRuns.size linear)))
  | _, _ =>
    p.endedWith c (runThreads kernel frameOf grid.count 0 a).1
      (runThreads kernel frameOf grid.count 0 a).2

def modeOf (p : Platform) (h : Nat) : ThreadMode :=
  ((p.host? h).map HostState.threads).getD .inOrder

section Kernel

variable {name : String} {arguments results : List Slice} {grid : Grid}

theorem launchKernel_of_error {e : Error}
    (h : ((p.contextOf c.run.host).requireKernels >>= fun ks => Kernel.find ks name) = .error e) :
    p.launchKernel c name arguments results grid = p.ended c (.error e) := by
  rw [launchKernel, h]

theorem launchKernel_of_find {kernel : Kernel}
    (h : ((p.contextOf c.run.host).requireKernels >>= fun ks => Kernel.find ks name) = .ok kernel) :
    p.launchKernel c name arguments results grid =
      p.startThreads (p.modeOf c.run.host) kernel c arguments results grid := by
  rw [launchKernel, h]
  rfl

theorem steady_startThreads {kernel : Kernel} (hk : kernel.Framed) (mode : ThreadMode) (grid : Grid)
    (harguments : ∀ s ∈ arguments, .read s ∈ U c.run.host)
    (hresults : ∀ s ∈ results, .write s ∈ U c.run.host) :
    Steady U p (startThreads mode kernel c arguments results grid) := by
  have hthread : ∀ i, Arena.Obeys (U c.run.host)
      (kernel ⟨grid.point i, grid, arguments, results⟩).runOn := fun i =>
    hk.obeys harguments hresults
  unfold startThreads
  split
  · exact steady_endedWith (obeys_runAllThreads hthread grid.count 0 none)
  · exact .aloof (fun f _ => rfl) fun k => rfl
  · exact steady_endedWith (obeys_runThreads hthread grid.count 0)

theorem steady_launchKernel (hctx : (p.contextOf c.run.host).Framed)
    (harguments : ∀ s ∈ arguments, .read s ∈ U c.run.host)
    (hresults : ∀ s ∈ results, .write s ∈ U c.run.host) :
    Steady U p fun q => q.launchKernel c name arguments results grid := by
  cases hfind : (p.contextOf c.run.host).requireKernels >>= fun ks => Kernel.find ks name with
  | error e =>
    exact (Steady.pure U p (Except.ok [.settle c (.error e)])).congr fun q hq =>
      launchKernel_of_error (hq.contextOf ▸ hfind)
  | ok kernel =>
    refine (steady_startThreads (framed_of_find hctx hfind) (p.modeOf c.run.host) grid harguments
      hresults).congr fun q hq => ?_
    rw [launchKernel_of_find (hq.contextOf ▸ hfind), modeOf, hq.map_host? (fun _ _ => rfl), modeOf]

end Kernel

/-! #### Feeds -/

/-- Something happens to the infeed of a host, and a part may get its buffer. -/
def serve (act : Feed FeedTaker → Feed FeedTaker × Option (FeedTaker × Bytes)) (h : Nat)
    (p : Platform) : Platform × List (Effect Work) :=
  match (p.host? h).map HostState.feeds with
  | none => (p, [])
  | some feeds =>
    let p := p.modifyHost h fun s =>
      { s with feeds := { s.feeds with infeed := (act feeds.infeed).1 } }
    match (act feeds.infeed).2 with
    | some (t, bytes) => p.fill t bytes
    | none => (p, [])

def taking (t : FeedTaker) (f : Feed FeedTaker) : Feed FeedTaker × Option (FeedTaker × Bytes) :=
  ((f.dequeue t).1, (f.dequeue t).2.map (t, ·))

theorem takeAll_cons (p : Platform) (h intake part : Nat) (destination : Slice)
    (rest : List Slice) : p.takeAll h intake part (destination :: rest) =
      let first := p.serve (taking ⟨intake, part, destination⟩) h
      ((first.1.takeAll h intake (part + 1) rest).1,
        first.2 ++ (first.1.takeAll h intake (part + 1) rest).2) := by
  rw [takeAll, serve]
  cases hs : p.host? h with
  | none =>
    cases rest with
    | nil => rfl
    | cons => simp [takeAll, hs]
  | some s =>
    dsimp only [Option.map_some, taking]
    rcases s.feeds.infeed.dequeue ⟨intake, part, destination⟩ with ⟨infeed, _ | bytes⟩ <;> rfl

variable {t : FeedTaker} {g : Gathering} {bytes : Bytes}

theorem steady_writeFed {h : Nat} {destination : Slice} (hw : .write destination ∈ U h)
    (bytes : Bytes) : Steady U p fun q => q.writeFed h destination bytes := by
  unfold writeFed
  split
  · exact .pure U p _
  · exact steady_onArena (Arena.Obeys.write hw bytes)

theorem fill_of_some (hg : p.intakes[t.intake]? = some g) (bytes : Bytes) : p.fill t bytes =
    let out := p.writeFed g.call.run.host t.destination bytes
    ({ out.1 with intakes := out.1.intakes.setIfInBounds t.intake (g.ended t.part out.2) },
      gathered (g.ended t.part out.2)) := by
  rw [fill, hg]

theorem steady_fill (hg : p.intakes[t.intake]? = some g)
    (hw : .write t.destination ∈ U g.call.run.host) (bytes : Bytes) :
    Steady U p fun q => q.fill t bytes :=
  (Steady.andThen (fun o q =>
      ({ q with intakes := q.intakes.setIfInBounds t.intake (g.ended t.part o) },
        gathered (g.ended t.part o)))
    (steady_writeFed hw bytes) (.aloof (fun _ _ => rfl) fun _ => rfl) fun _ => rfl).congr
    fun _ hq => fill_of_some (hq.intakes ▸ hg) bytes

@[simp] theorem intakes_writeFed (p : Platform) (h : Nat) (destination : Slice) (bytes : Bytes) :
    (p.writeFed h destination bytes).1.intakes = p.intakes := by
  unfold writeFed
  split
  · rfl
  · rw [onArena_eq]
    rfl

theorem keepsIntakes_set {i : Nat} {g' : Gathering} (hg : p.intakes[i]? = some g)
    (hcall : g'.call = g.call) :
    p.KeepsIntakes { p with intakes := p.intakes.setIfInBounds i g' } := by
  intro j g'' hj
  dsimp only
  rw [Array.getElem?_setIfInBounds]
  split
  · next heq =>
    subst heq
    obtain rfl := Option.some.inj (hg.symm.trans hj)
    obtain ⟨hlt, -⟩ := Array.getElem?_eq_some_iff.1 hj
    exact ⟨_, if_pos hlt, hcall⟩
  · exact ⟨g'', hj, rfl⟩

theorem keepsIntakes_writeFed (hg : p.intakes[t.intake]? = some g) (bytes : Bytes) :
    let out := p.writeFed g.call.run.host t.destination bytes
    out.1.KeepsIntakes { out.1 with
      intakes := out.1.intakes.setIfInBounds t.intake (g.ended t.part out.2) } :=
  keepsIntakes_set (g := g) (by rw [intakes_writeFed]; exact hg) rfl

theorem keepsIntakes_fill (p : Platform) (t : FeedTaker) (bytes : Bytes) :
    p.KeepsIntakes (p.fill t bytes).1 := by
  cases hg : p.intakes[t.intake]? with
  | none =>
    rw [fill, hg]
    exact fun i g hi => ⟨g, hi, rfl⟩
  | some g =>
    rw [fill_of_some hg]
    exact fun i g' hi => keepsIntakes_writeFed hg bytes i g' (by rw [intakes_writeFed]; exact hi)

variable {act : Feed FeedTaker → Feed FeedTaker × Option (FeedTaker × Bytes)} {h : Nat}

theorem keepsIntakes_serve (p : Platform)
    (act : Feed FeedTaker → Feed FeedTaker × Option (FeedTaker × Bytes)) (h : Nat) :
    p.KeepsIntakes (p.serve act h).1 := by
  unfold serve
  split
  · exact fun i g hi => ⟨g, hi, rfl⟩
  · dsimp only
    split
    · exact fun i g hi => keepsIntakes_fill (p.modifyHost h _) _ _ i g hi
    · exact fun i g hi => ⟨g, hi, rfl⟩

theorem steady_modifyHost {h : Nat} {g : HostState → HostState}
    (hg : ∀ s a, g { s with arena := a } = { g s with arena := a }) {β : Type} (b : β) :
    Steady U p fun q => (q.modifyHost h g, b) := by
  refine .aloof (fun f _ => Prod.ext (modifyHost_withArenas p f h hg) rfl) fun k => ?_
  rw [host?_modifyHost]
  split
  · cases p.host? k with
    | none => rfl
    | some s => exact congrArg (fun s => some s.arena) (hg s s.arena)
  · rfl

def Serves (U : Nat → Set BufferUse) (p : Platform)
    (act : Feed FeedTaker → Feed FeedTaker × Option (FeedTaker × Bytes)) (h : Nat) : Prop :=
  ∀ feeds, (p.host? h).map HostState.feeds = some feeds →
    ∀ t bytes, (act feeds.infeed).2 = some (t, bytes) → t.Declared U p.intakes

theorem serves_taking (ht : t.Declared U p.intakes) (h : Nat) : p.Serves U (taking t) h :=
  fun feeds _ t' bytes hgot => by
    obtain ⟨b, -, heq⟩ := Option.map_eq_some_iff.1 hgot
    cases heq
    exact ht

theorem steady_serve (hserves : p.Serves U act h) : Steady U p (serve act h) := by
  have hfeeds : ∀ q, p.Peers U q →
      (q.host? h).map HostState.feeds = (p.host? h).map HostState.feeds := fun q hq =>
    hq.map_host? (fun _ _ => rfl) h
  cases hs : (p.host? h).map HostState.feeds with
  | none =>
    refine (Steady.pure U p ([] : List (Effect Work))).congr fun q hq => ?_
    rw [serve, hfeeds q hq, hs]
  | some feeds =>
    have hmodify : ∀ {β : Type} (b : β), Steady U p fun q => (q.modifyHost h fun s =>
        { s with feeds := { s.feeds with infeed := (act feeds.infeed).1 } }, b) :=
      fun b => steady_modifyHost (fun _ _ => rfl) b
    cases hgot : (act feeds.infeed).2 with
    | none =>
      refine (hmodify ([] : List (Effect Work))).congr fun q hq => ?_
      rw [serve, hfeeds q hq, hs]
      dsimp only
      rw [hgot]
    | some served =>
      obtain ⟨t, bytes⟩ := served
      obtain ⟨g, hg, hw⟩ := hserves feeds hs t bytes hgot
      refine (Steady.andThen (fun _ q => q.fill t bytes) (hmodify ())
        (steady_fill (p := p.modifyHost h _) hg hw bytes) fun q => rfl).congr fun q hq => ?_
      rw [serve, hfeeds q hq, hs]
      dsimp only
      rw [hgot]

theorem steady_takeAll {h intake : Nat} (hg : p.intakes[intake]? = some g) (part : Nat)
    {destinations : List Slice} (hw : ∀ s ∈ destinations, .write s ∈ U g.call.run.host) :
    Steady U p fun q => q.takeAll h intake part destinations := by
  induction destinations generalizing p g part with
  | nil => exact .pure U p _
  | cons destination rest ih =>
    obtain ⟨g', hg', hcall⟩ := keepsIntakes_serve p (taking ⟨intake, part, destination⟩) h intake g hg
    refine .andThen (fun effects q => ((q.takeAll h intake (part + 1) rest).1,
      effects ++ (q.takeAll h intake (part + 1) rest).2))
      (steady_serve (serves_taking ⟨g, hg, hw _ List.mem_cons_self⟩ h)) ?_
      fun q => takeAll_cons q h intake part _ _
    refine (ih hg' (part + 1) fun s hs => ?_).map _
    rw [hcall]
    exact hw s (List.mem_cons_of_mem _ hs)

theorem steady_launchInfeed {destinations : List Slice}
    (hw : ∀ s ∈ destinations, .write s ∈ U c.run.host) :
    Steady U p fun q => q.launchInfeed c destinations := by
  cases hfeeds : (p.contextOf c.run.host).requireFeeds with
  | error e =>
    refine (Steady.pure U p (Except.ok [Effect.settle c (.error e)])).congr fun q hq => ?_
    rw [launchInfeed, hq.contextOf, hfeeds]
    rfl
  | ok u =>
    by_cases hempty : destinations.isEmpty
    · refine (Steady.pure U p (Except.ok [Effect.settle c (.ok ())])).congr fun q hq => ?_
      rw [launchInfeed, hq.contextOf, hfeeds]
      dsimp only
      rw [if_pos hempty]
      rfl
    · have hpush : Steady U p fun q =>
          ({ q with intakes := q.intakes.push ({ call := c, remaining := destinations.length }) },
            q.intakes.size) :=
        .aloof (fun f _ => rfl) fun k => rfl
      refine (Steady.andThen (fun intake q =>
          ((q.takeAll c.run.host intake 0 destinations).1,
            Except.ok (q.takeAll c.run.host intake 0 destinations).2)) hpush
        ((steady_takeAll (g := { call := c, remaining := destinations.length }) ?_ 0 hw).map _)
        fun q => rfl).congr fun q hq => ?_
      · simp
      · rw [launchInfeed, hq.contextOf, hfeeds]
        dsimp only
        rw [if_neg hempty]

theorem steady_foldl_putOut (h : Nat) (buffers : List Bytes) {β : Type} (b : β) :
    Steady U p fun q => (buffers.foldl (fun p b => p.putOut h b) q, b) := by
  induction buffers generalizing p with
  | nil => exact .pure U p b
  | cons bytes buffers ih =>
    exact .andThen (fun _ q => (buffers.foldl (fun p b => p.putOut h b) q, b))
      (steady_modifyHost (fun _ _ => rfl) ()) ih fun q => rfl

theorem mapM_read_congr {U : Set BufferUse} {a a' : Arena} (h : a.Agree U a') {sources : List Slice}
    (hs : ∀ s ∈ sources, .read s ∈ U) : sources.mapM a'.read = sources.mapM a.read := by
  induction sources with
  | nil => rfl
  | cons s sources ih =>
    have hread : a'.read s = a.read s := h.read (hs s List.mem_cons_self) rfl
    rw [List.mapM_cons, List.mapM_cons, hread, ih fun s' h' => hs s' (List.mem_cons_of_mem _ h')]

def putAll (c : CallKey) (r : Except Error (List Bytes)) (p : Platform) : Started :=
  match r with
  | .error e => p.ended c (.error e)
  | .ok buffers => (buffers.foldl (fun p b => p.putOut c.run.host b) p).ended c (.ok ())

theorem steady_launchOutfeed {sources : List Slice}
    (hs : ∀ s ∈ sources, .read s ∈ U c.run.host) :
    Steady U p fun q => q.launchOutfeed c sources := by
  refine .andThen (putAll c)
    (Steady.look (r := fun q => (q.contextOf c.run.host).requireFeeds >>= fun _ =>
      sources.mapM (q.arenaOf c.run.host).read) fun q hq => ?_) ?_ fun q => rfl
  · rw [hq.contextOf, mapM_read_congr (hq.agree _) hs]
  · cases (p.contextOf c.run.host).requireFeeds >>= fun _ =>
      sources.mapM (p.arenaOf c.run.host).read with
    | error e => exact .pure U p _
    | ok buffers => exact steady_foldl_putOut c.run.host buffers _

/-! #### Generators, places and exchanges -/

theorem steady_launchAdvance {state : Slice} (hw : .write state ∈ U c.run.host) (delta : Nat)
    (generator : Resource) : Steady U p fun q => q.launchAdvance c state delta generator := by
  have hmove : Steady U p fun q =>
      let now := (q.generators.get? generator.id).getD initialRandom
      ({ q with generators := q.generators.set generator.id ((now + delta) % Nat.pow 2 128) }, now) :=
    .aloof (fun f _ => rfl) fun k => rfl
  exact .andThen (fun now q => q.endedBy c fun a => a.write state (.ofNat 16 now)) hmove
    (steady_endedBy (.write hw _)) fun q => rfl

theorem steady_launchPlaceId (axis : PlaceAxis) {destination : Slice}
    (hw : .write destination ∈ U c.run.host) :
    Steady U p fun q => q.launchPlaceId c axis destination := by
  have hwrite : ∀ r : Except Error Nat, Arena.Obeys (U c.run.host)
      (Arena.attempt fun a => r >>= fun n => a.write destination (.ofNat 4 n)) := fun r => by
    cases r with
    | error e => exact .pure _ _
    | ok n => exact .write hw _
  refine (steady_endedBy (hwrite (Primitive.placeNumber (p.contextOf c.run.host) axis))).congr
    fun q hq => ?_
  rw [← hq.contextOf]
  rfl

theorem entry_congr {op : Collective} {q : Platform} (hq : p.Peers U q)
    (hs : .read op.source ∈ U c.run.host) : q.entry c info op = p.entry c info op := by
  have hread : (q.arenaOf c.run.host).read op.source = (p.arenaOf c.run.host).read op.source :=
    (hq.agree _).read hs rfl
  rw [entry, entry, hq.contextOf, hread]

theorem steady_launchCollective {op : Collective} (hs : .read op.source ∈ U c.run.host) :
    Steady U p fun q => q.launchCollective c info op := by
  cases hentry : p.entry c info op with
  | error e =>
    refine (Steady.pure U p (Except.ok [Effect.settle c (.error e)])).congr fun q hq => ?_
    exact q.launchCollective_of_error (entry_congr hq hs ▸ hentry)
  | ok e =>
    obtain ⟨timers, heq⟩ := p.launchCollective_of_ok hentry
    refine .aloof (fun f hf => ?_) fun k => by rw [heq]; rfl
    rw [launchCollective, launchCollective, entry_congr hf hs, hentry]
    dsimp only
    rw [hf.transport]
    rcases (p.transport.enter e.exchange e.key e.rank e.blocks).2 with
      error | ⟨cell, _ | _⟩ | ⟨cell, _ | values⟩ <;> rfl

/-- How a custom call ends, and what becomes of the allocator of its host. -/
def endCall (p : Platform) (c : CallKey) (target : String)
    (r : Option Allocator × Except Fault Unit) : Started :=
  (p.modifyHost c.run.host fun h => { h with allocator := r.1 },
    endingOf c (match r.2 with
      | .error (.error e) => .error (.error (Handler.wrapError target e))
      | r => r))

def handlerOf (context : RunContext) (target : String) : Except Error (CallContext × Handler) := do
  let ctx ← context.requireCustomCall
  return (ctx, ← Handler.find ctx.handlers target)

theorem framed_of_handlerOf {context : RunContext} (hctx : context.Framed) {target : String}
    {ctx : CallContext} {handler : Handler} (h : handlerOf context target = .ok (ctx, handler)) :
    handler.Framed := by
  unfold handlerOf RunContext.requireCustomCall at h
  split at h
  · next ctx' hsome =>
    change (Handler.find ctx'.handlers target >>= fun f => .ok (ctx', f)) = _ at h
    cases hfind : Handler.find ctx'.handlers target with
    | error e =>
      rw [hfind] at h
      cases h
    | ok f =>
      rw [hfind] at h
      cases h
      exact hctx.handlers _ hsome _ (Registry.exists_mem_of_find hfind)
  · cases h

theorem launchCustomCall_of_error {target config : String} {operands results : List Slice} {e : Error}
    (h : handlerOf (p.contextOf c.run.host) target = .error e) :
    p.launchCustomCall c target config operands results = p.ended c (.error e) := by
  unfold handlerOf at h
  rw [launchCustomCall]
  dsimp only
  rw [h]

/-- A call is what its handler makes of the arena of the host, and then its end. -/
theorem launchCustomCall_of_ok {target config : String} {operands results : List Slice}
    {ctx : CallContext} {handler : Handler}
    (h : handlerOf (p.contextOf c.run.host) target = .ok (ctx, handler)) :
    p.launchCustomCall c target config operands results =
      let run := (handler ⟨target, config, operands, results, ctx.ordinal, ctx.stream,
        ctx.context⟩).beside CallState.parts ((p.host? c.run.host).bind HostState.allocator)
        (p.arenaOf c.run.host)
      (p.setArena c.run.host run.1).endCall c target run.2 := by
  unfold handlerOf at h
  rw [launchCustomCall]
  dsimp only
  rw [h]
  dsimp only
  rw [endedWith_eq, endCall, setArena_modifyHost _ _ _ fun _ _ => rfl]
  rfl

theorem steady_launchCustomCall {target config : String} {operands results : List Slice}
    (hctx : (p.contextOf c.run.host).Framed) (hoperands : ∀ s ∈ operands, .read s ∈ U c.run.host)
    (hresults : ∀ s ∈ results, .write s ∈ U c.run.host) :
    Steady U p fun q => q.launchCustomCall c target config operands results := by
  cases hfind : handlerOf (p.contextOf c.run.host) target with
  | error e =>
    exact (Steady.pure U p (Except.ok [Effect.settle c (.error e)])).congr fun q hq =>
      launchCustomCall_of_error (hq.contextOf ▸ hfind)
  | ok found =>
    obtain ⟨ctx, handler⟩ := found
    have hrun : Arena.Obeys (U c.run.host) ((handler ⟨target, config, operands, results, ctx.ordinal,
        ctx.stream, ctx.context⟩).beside CallState.parts
          ((p.host? c.run.host).bind HostState.allocator)) :=
      Routine.Through.obeys hoperands hresults (framed_of_handlerOf hctx hfind
        ⟨target, config, operands, results, ctx.ordinal, ctx.stream, ctx.context⟩) _
    refine (Steady.andThen (fun r q => q.endCall c target r) (Steady.arena hrun)
      (steady_modifyHost (fun _ _ => rfl) _) fun q => rfl).congr fun q hq => ?_
    rw [launchCustomCall_of_ok (hq.contextOf ▸ hfind)]
    have hallocator : (q.host? c.run.host).bind HostState.allocator =
        (p.host? c.run.host).bind HostState.allocator := by
      have hjoin : ∀ x : Option HostState, x.bind HostState.allocator =
          (x.map HostState.allocator).join := by rintro (_ | _) <;> rfl
      rw [hjoin, hjoin, hq.map_host? fun _ _ => rfl]
    rw [hallocator]

theorem mem_of_frame {V : Set BufferUse} {reads writes : List Slice}
    (h : ∀ u ∈ reads.map BufferUse.read ++ writes.map .write, u ∈ V) :
    (∀ s ∈ reads, .read s ∈ V) ∧ ∀ s ∈ writes, .write s ∈ V :=
  ⟨fun _ hs => h _ (List.mem_append_left _ (List.mem_map_of_mem hs)),
    fun _ hs => h _ (List.mem_append_right _ (List.mem_map_of_mem hs))⟩

/-- The start of an operation is steady under the uses that the operation declares. -/
theorem steady_launch {op : Primitive} (hop : op.IsGenuine) (hctx : (p.contextOf c.run.host).Framed)
    (hU : ∀ u ∈ op.footprint.buffers, u ∈ U c.run.host) : Steady U p (launch c info op) := by
  cases op with
  | copy src dst =>
    exact steady_endedBy (.copy (hU (.read src) List.mem_cons_self) rfl
      (hU _ (List.mem_cons_of_mem _ List.mem_cons_self)))
  | kernel name arguments results grid =>
    exact steady_launchKernel hctx (mem_of_frame hU).1 (mem_of_frame hU).2
  | infeed destinations token =>
    exact steady_launchInfeed fun s hs => hU _ (List.mem_map_of_mem hs)
  | outfeed sources token =>
    exact steady_launchOutfeed fun s hs => hU _ (List.mem_map_of_mem hs)
  | advanceRandom state delta generator =>
    exact steady_launchAdvance (hU _ List.mem_cons_self) delta generator
  | placeId axis destination => exact steady_launchPlaceId axis (hU _ List.mem_cons_self)
  | collective op => exact steady_launchCollective (hU _ List.mem_cons_self)
  | customCall target config operands results =>
    exact steady_launchCustomCall hctx (mem_of_frame hU).1 (mem_of_frame hU).2
  | scripted => exact hop.elim

/-! #### What is left behind -/

theorem steady_handOut {ts : List Participant} (hts : ∀ t ∈ ts, t.Declared U) :
    Steady U p fun q => q.handOut ts := by
  cases ts with
  | nil => exact .pure U p _
  | cons t rest =>
    refine ((Steady.arena (Arena.Obeys.receive (hts t List.mem_cons_self) (p.received t))).map
      (handedOut t rest)).congr fun q hq => ?_
    have hreceived : q.received t = p.received t := by rw [received, received, hq.transport]
    rw [handOut_cons, hreceived]

theorem steady_attend {t : Participant} (ht : t.Declared U) : Steady U p fun q => q.attend t := by
  cases hend : p.transport.contributions? t.exchange.kind t.cell with
  | some r =>
    exact (steady_handOut (by simpa using ht)).congr fun q hq =>
      q.attend_of_settled (hq.transport ▸ hend)
  | none =>
    refine .aloof (fun f hf => ?_) fun k => by rw [attend_of_pending _ hend]; rfl
    rw [attend_of_pending _ hend, attend_of_pending (p.withArenas f) (hf.transport ▸ hend)]
    rfl

def threadEnd (g : Gathering) (linear : Nat) : Except Fault Unit → Gathering × Option String
  | .ok () => (g.ended linear (.ok ()), none)
  | .error (.error e) => (g.ended linear (.error e), none)
  | .error (.panic text) => (g.lose, some text)

theorem runThread_of_some {gridRun linear : Nat} {g : GridRun}
    (hg : p.gridRuns[gridRun]? = some g) : p.runThread gridRun linear =
      let out := (g.kernel ⟨g.grid.point linear, g.grid, g.arguments, g.results⟩).runOn
        (p.arenaOf g.gathering.call.run.host)
      let q := p.setArena g.gathering.call.run.host out.1
      ({ q with gridRuns := (q.gridRuns.setIfInBounds gridRun
          { g with gathering := (threadEnd g.gathering linear out.2).1 }) },
        gathered (threadEnd g.gathering linear out.2).1, (threadEnd g.gathering linear out.2).2) := by
  rw [runThread, hg]
  dsimp only
  rcases ((g.kernel ⟨g.grid.point linear, g.grid, g.arguments, g.results⟩).runOn
    (p.arenaOf g.gathering.call.run.host)).2 with (e | text) | u <;> rfl

theorem steady_runThread {gridRun linear : Nat}
    (hg : ∀ g, p.gridRuns[gridRun]? = some g → g.Declared U) :
    Steady U p fun q => q.runThread gridRun linear := by
  cases hrun : p.gridRuns[gridRun]? with
  | none =>
    refine (Steady.pure U p (([] : List (Effect Work)), (none : Option String))).congr fun q hq => ?_
    rw [runThread, hq.gridRuns, hrun]
  | some g =>
    have hdeclared := hg g hrun
    refine (Steady.andThen (fun r q => ({ q with gridRuns := (q.gridRuns.setIfInBounds gridRun
        { g with gathering := (threadEnd g.gathering linear r).1 }) },
        gathered (threadEnd g.gathering linear r).1, (threadEnd g.gathering linear r).2))
      (Steady.arena (hdeclared.kernel.obeys
        (f := ⟨g.grid.point linear, g.grid, g.arguments, g.results⟩) hdeclared.arguments
          hdeclared.results)) (.aloof (fun f _ => rfl) fun k => rfl) fun q => rfl).congr
      fun q hq => runThread_of_some (hq.gridRuns ▸ hrun)

theorem steady_perform (hp : p.Custody U) {x : Work} (hx : x.Declared U) :
    Steady U p (backend.perform x) := by
  cases x with
  | attend t => exact (steady_attend (hx t List.mem_cons_self)).map fun e => (e, none)
  | resolve values t => exact .aloof (fun f _ => rfl) fun k => rfl
  | handOut ts => exact (steady_handOut hx).map fun e => (e, none)
  | thread gridRun linear => exact steady_runThread (hp.gridRuns gridRun)

theorem steady_discard (x : Work) : Steady U p (backend.discard x) := by
  cases x with
  | attend t => exact .pure U p _
  | resolve values t => exact .pure U p _
  | handOut ts => exact .pure U p _
  | thread gridRun linear =>
    change Steady U p fun q => q.loseThread gridRun
    unfold loseThread
    exact .aloof (fun f _ => by dsimp only [withArenas]; split <;> rfl) fun k => by split <;> rfl

end Steady

end Platform

end OpFlow
