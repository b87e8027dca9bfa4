import OpFlow.Proofs.Feed.Filling

/-!
What leaves the feeds of a host alone: every operation that is no feed of that host, all work that
operations leave behind, and all that happens outside but that the host puts in a buffer or takes one.
Some calls are spared: nothing but a feed is about to end them. No such step changes that, and none
ends a call that is spared.
-/
namespace OpFlow

open Machine (CallKey Effect Backend)

variable {K : CallKey → Prop}

def Work.Spares (K : CallKey → Prop) (x : Work) : Prop := ∀ t ∈ x.participants, ¬ K t.call

def Effect.Spares (K : CallKey → Prop) : Effect Work → Prop
  | .settle c _ => ¬ K c
  | .work x | .submit _ x => x.Spares K

theorem Effect.Spares.of_work? {e : Effect Work} (he : Effect.Spares K e)
    {w : Work} (hw : e.work? = some w) : w.Spares K := by
  cases e with
  | settle c o => cases hw
  | work w' | submit k w' =>
    cases hw
    exact he

namespace Platform

def portOf (p : Platform) (h : Nat) : Option (FeedPair FeedTaker Nat × Array (Option Bytes)) :=
  (p.host? h).map fun s => (s.feeds, s.outfed)

/-- Nothing in flight but feeds is about to end such a call, and whoever waits for the infeed of a
host is a part of an operation of that host. -/
structure Spares (K : CallKey → Prop) (p : Platform) : Prop where
  waiting : ∀ t ∈ p.transport.waiting, ¬ K t.call
  gridRuns : ∀ (i : Nat) g, p.gridRuns[i]? = some g → ¬ K g.gathering.call
  deferred : ∀ (i : Nat) c, p.deferred[i]? = some (some c) → ¬ K c
  housed : ∀ k port, p.portOf k = some port → ∀ t ∈ port.1.infeed.waiters,
    ∃ g, p.intakes[t.intake]? = some g ∧ g.call.run.host = k

/-- The feeds of a host are left alone, and so are all calls that are spared. -/
structure Aside (h : Nat) (K : CallKey → Prop) (p p' : Platform) (effects : List (Effect Work)) :
    Prop where
  port : p'.portOf h = p.portOf h
  intakes : ∀ (i : Nat) g, p.intakes[i]? = some g → g.call.run.host = h → p'.intakes[i]? = some g
  spares : p'.Spares K
  effects : ∀ e ∈ effects, Effect.Spares K e

variable {p p' : Platform} {h k : Nat} {c : CallKey} {info : OpInfo} {effects : List (Effect Work)}

theorem portOf_modifyHost {g : HostState → HostState} (hfeeds : ∀ s, (g s).feeds = s.feeds)
    (houtfed : ∀ s, (g s).outfed = s.outfed) (p : Platform) (k : Nat) :
    (p.modifyHost k g).portOf = p.portOf := by
  funext j
  rw [portOf, portOf, host?_modifyHost]
  split
  · cases p.host? j with
    | none => rfl
    | some s =>
      simp only [Option.map_some]
      rw [hfeeds, houtfed]
  · rfl

@[simp] theorem portOf_setArena (p : Platform) (k : Nat) (a : Arena) :
    (p.setArena k a).portOf = p.portOf :=
  portOf_modifyHost (g := fun s => { s with arena := a }) (fun _ => rfl) (fun _ => rfl) p k

theorem portOf_modifyHost_of_ne {g : HostState → HostState} (hne : k ≠ h) :
    (p.modifyHost k g).portOf h = p.portOf h := by
  rw [portOf, host?_modifyHost, if_neg hne, portOf]

theorem Spares.aside (hp : p.Spares K) (hport : p'.portOf = p.portOf)
    (hintakes : p'.intakes = p.intakes) (hwaiting : ∀ t ∈ p'.transport.waiting, ¬ K t.call)
    (hgridRuns : ∀ (i : Nat) g, p'.gridRuns[i]? = some g → ¬ K g.gathering.call)
    (hdeferred : ∀ (i : Nat) c, p'.deferred[i]? = some (some c) → ¬ K c)
    (heffects : ∀ e ∈ effects, Effect.Spares K e) : p.Aside h K p' effects :=
  ⟨congrFun hport h, fun i g hg _ => hintakes ▸ hg,
    ⟨hwaiting, hgridRuns, hdeferred, by rw [hport, hintakes]; exact hp.housed⟩, heffects⟩

theorem Spares.aside_of_hosts (hp : p.Spares K) (hport : p'.portOf = p.portOf)
    (hintakes : p'.intakes = p.intakes) (htransport : p'.transport = p.transport)
    (hgridRuns : p'.gridRuns = p.gridRuns) (hdeferred : p'.deferred = p.deferred)
    (heffects : ∀ e ∈ effects, Effect.Spares K e) : p.Aside h K p' effects :=
  hp.aside hport hintakes (htransport ▸ hp.waiting) (hgridRuns ▸ hp.gridRuns)
    (hdeferred ▸ hp.deferred) heffects

theorem Spares.aside_setArena (hp : p.Spares K) (k : Nat) (a : Arena)
    (heffects : ∀ e ∈ effects, Effect.Spares K e) : p.Aside h K (p.setArena k a) effects :=
  hp.aside_of_hosts (portOf_setArena p k a) rfl rfl rfl rfl heffects

theorem Spares.aside_self (hp : p.Spares K) (heffects : ∀ e ∈ effects, Effect.Spares K e) :
    p.Aside h K p effects :=
  hp.aside_of_hosts rfl rfl rfl rfl rfl heffects

theorem spares_settle (hc : ¬ K c) (o : Outcome) :
    ∀ e ∈ [(.settle c o : Effect Work)], Effect.Spares K e :=
  List.forall_mem_singleton.2 hc

theorem spares_gathered {g : Gathering} (hg : ¬ K g.call) :
    ∀ e ∈ gathered g, Effect.Spares K e := by
  unfold gathered
  split
  · exact spares_settle hg _
  · simp

/-! ### Operations that are no feeds -/

theorem Spares.aside_endedBy (hp : p.Spares K) (hc : ¬ K c) (f : Arena → Except Error Arena) :
    p.Aside h K (p.endedBy c f).1 (Backend.opening c (p.endedBy c f).2) := by
  rw [show p.endedBy c f = ((p.onArena c.run.host f).1,
    .ok [.settle c (p.onArena c.run.host f).2]) from rfl, onArena_eq]
  exact hp.aside_setArena _ _ (spares_settle hc _)

theorem spares_endingOf (hc : ¬ K c) (r : Except Fault Unit) :
    ∀ e ∈ Backend.opening c (endingOf c r), Effect.Spares K e := by
  rcases r with (e | text) | u <;> exact spares_settle hc _

theorem Spares.aside_endedWith (hp : p.Spares K) (hc : ¬ K c) (a : Arena) (r : Except Fault Unit) :
    p.Aside h K (p.endedWith c a r).1 (Backend.opening c (p.endedWith c a r).2) := by
  rw [endedWith_eq]
  exact hp.aside_setArena _ _ (spares_endingOf hc r)

theorem Spares.aside_launchKernel (hp : p.Spares K) (hc : ¬ K c) (name : String)
    (arguments results : List Slice) (grid : Grid) :
    p.Aside h K (p.launchKernel c name arguments results grid).1
      (Backend.opening c (p.launchKernel c name arguments results grid).2) := by
  cases hfind : (p.contextOf c.run.host).requireKernels >>= fun ks => Kernel.find ks name with
  | error e =>
    rw [launchKernel_of_error hfind]
    exact hp.aside_self (spares_settle hc _)
  | ok kernel =>
    rw [launchKernel_of_find hfind]
    unfold startThreads
    split
    · exact hp.aside_endedWith hc _ _
    · refine hp.aside (by rfl) (by rfl) hp.waiting (fun i g hg => ?_) hp.deferred
        (fun e he => ?_)
      · rw [Array.getElem?_push] at hg
        split at hg
        · obtain rfl := Option.some.inj hg
          exact hc
        · exact hp.gridRuns i g hg
      · obtain ⟨linear, -, rfl⟩ := List.mem_map.1 he
        exact fun t ht => by cases ht
    · exact hp.aside_endedWith hc _ _

theorem spares_joined (hc : ¬ K c) {e : Entry} {destination : Slice}
    (entrance : Entrance (List Bytes)) :
    ∀ x ∈ joined c e destination entrance, Effect.Spares K x := by
  rcases entrance with error | ⟨cell, isNew⟩ | ⟨cell, _ | values⟩ <;>
    simp [joined, Effect.Spares, Work.Spares, Work.participants, hc]

theorem Spares.aside_launchCollective (hp : p.Spares K) (hc : ¬ K c) (op : Collective) :
    p.Aside h K (p.launchCollective c info op).1
      (Backend.opening c (p.launchCollective c info op).2) := by
  cases hentry : p.entry c info op with
  | error e =>
    rw [launchCollective_of_error p hentry]
    exact hp.aside_self (spares_settle hc _)
  | ok e =>
    obtain ⟨timers, heq⟩ := launchCollective_of_ok p hentry
    rw [heq]
    exact hp.aside (by rfl) (by rfl) (fun t ht => hp.waiting t ((waiting_enter p.transport
      e.exchange e.key e.rank e.blocks).mem_iff.1 ht)) hp.gridRuns hp.deferred (spares_joined hc _)

theorem portOf_endCall (p : Platform) (c : CallKey) (a : Arena) (target : String)
    (r : Option Allocator × Except Fault Unit) :
    ((p.setArena c.run.host a).endCall c target r).1.portOf = p.portOf :=
  (portOf_modifyHost (g := fun s => { s with allocator := r.1 }) (fun _ => rfl) (fun _ => rfl) _
    _).trans (portOf_setArena p c.run.host a)

theorem Spares.aside_endCall (hp : p.Spares K) (hc : ¬ K c) (a : Arena) (target : String)
    (r : Option Allocator × Except Fault Unit) :
    p.Aside h K ((p.setArena c.run.host a).endCall c target r).1
      (Backend.opening c ((p.setArena c.run.host a).endCall c target r).2) :=
  hp.aside_of_hosts (portOf_endCall p c a target r) rfl rfl rfl rfl (spares_endingOf hc _)

theorem Spares.aside_launchCustomCall (hp : p.Spares K) (hc : ¬ K c) (target config : String)
    (operands results : List Slice) :
    p.Aside h K (p.launchCustomCall c target config operands results).1
      (Backend.opening c (p.launchCustomCall c target config operands results).2) := by
  cases hfind : handlerOf (p.contextOf c.run.host) target with
  | error e =>
    rw [launchCustomCall_of_error hfind]
    exact hp.aside_self (spares_settle hc _)
  | ok found =>
    rw [launchCustomCall_of_ok hfind]
    exact hp.aside_endCall hc _ target _

theorem Spares.aside_launchScript (hp : p.Spares K) (hc : ¬ K c) (script : Script) :
    p.Aside h K (p.launchScript c script).1 (Backend.opening c (p.launchScript c script).2) := by
  cases script with
  | succeed | fail e => exact hp.aside_self (spares_settle hc _)
  | write slice bytes => exact hp.aside_endedBy hc _
  | panic text => exact hp.aside_self (spares_settle hc _)
  | defer =>
    refine hp.aside (by rfl) (by rfl) hp.waiting hp.gridRuns (fun i d hd => ?_)
      (fun e he => by cases he)
    change (p.deferred.push (some c))[i]? = _ at hd
    rw [Array.getElem?_push] at hd
    split at hd
    · cases hd
      exact hc
    · exact hp.deferred i d hd

/-! ### Feeds of one host -/

structure Tends (k : Nat) (K : CallKey → Prop) (p p' : Platform) : Prop where
  port : ∀ j, k ≠ j → p'.portOf j = p.portOf j
  intakes : ∀ (i : Nat) g, p.intakes[i]? = some g → g.call.run.host ≠ k → p'.intakes[i]? = some g
  spares : p'.Spares K

theorem Spares.tends_self (hp : p.Spares K) (k : Nat) : p.Tends k K p :=
  ⟨fun _ _ => rfl, fun _ _ hg _ => hg, hp⟩

theorem Tends.aside (ht : p.Tends k K p') (hne : k ≠ h)
    (heffects : ∀ e ∈ effects, Effect.Spares K e) : p.Aside h K p' effects :=
  ⟨ht.port h hne, fun i g hg hhost => ht.intakes i g hg (by rw [hhost]; exact hne.symm), ht.spares,
    heffects⟩

theorem portOf_setInfeed_of_ne {f : Feed FeedTaker} (hne : k ≠ h) :
    (p.setInfeed k f).portOf h = p.portOf h :=
  portOf_modifyHost_of_ne hne

theorem portOf_setInfeed {f : Feed FeedTaker} :
    (p.setInfeed h f).portOf h =
      (p.portOf h).map fun port => ({ port.1 with infeed := f }, port.2) := by
  rw [portOf, setInfeed, host?_modifyHost, if_pos rfl, portOf]
  cases p.host? h <;> rfl

theorem feeds_of_portOf {port : FeedPair FeedTaker Nat × Array (Option Bytes)}
    (hport : p.portOf h = some port) : (p.host? h).map HostState.feeds = some port.1 := by
  obtain ⟨s, hs, rfl⟩ := Option.map_eq_some_iff.1 hport
  rw [hs]
  rfl

/-- An infeed changes, arenas change, and so do intakes of that host or new ones; whoever comes to
wait is a part of an operation of that host. -/
theorem Spares.tends_setInfeed (hp : p.Spares K) {k : Nat} {f : Feed FeedTaker}
    {intakes : Array Gathering} {q : Platform} (hport : q.portOf = p.portOf)
    (htransport : q.transport = p.transport) (hgridRuns : q.gridRuns = p.gridRuns)
    (hdeferred : q.deferred = p.deferred)
    (hintakes : ∀ (i : Nat) g, p.intakes[i]? = some g →
      ∃ g', intakes[i]? = some g' ∧ g'.call = g.call ∧ (g.call.run.host ≠ k → g' = g))
    (hwaiters : ∀ port, p.portOf k = some port → ∀ t ∈ f.waiters, t ∈ port.1.infeed.waiters ∨
      ∃ g, intakes[t.intake]? = some g ∧ g.call.run.host = k) :
    p.Tends k K ({ q.setInfeed k f with intakes } : Platform) := by
  have hkeep : ∀ {j : Nat} {t : FeedTaker}, (∃ g, p.intakes[t.intake]? = some g ∧
      g.call.run.host = j) → ∃ g, intakes[t.intake]? = some g ∧ g.call.run.host = j :=
    fun ⟨g, hg, hhost⟩ =>
      let ⟨g', hg', hcall, _⟩ := hintakes _ g hg
      ⟨g', hg', hcall ▸ hhost⟩
  have hother : ∀ j, k ≠ j → (q.setInfeed k f).portOf j = p.portOf j := fun j hne =>
    (portOf_setInfeed_of_ne hne).trans (congrFun hport j)
  refine ⟨hother, fun i g hg hne => ?_, htransport ▸ hp.waiting, hgridRuns ▸ hp.gridRuns,
    hdeferred ▸ hp.deferred, fun j port hj t ht => ?_⟩
  · obtain ⟨g', hg', -, hsame⟩ := hintakes i g hg
    exact hsame hne ▸ hg'
  · by_cases hjk : k = j
    · subst hjk
      change (q.setInfeed k f).portOf k = some port at hj
      rw [portOf_setInfeed, hport] at hj
      obtain ⟨port', hport', rfl⟩ := Option.map_eq_some_iff.1 hj
      rcases hwaiters port' hport' t ht with hold | hnew
      · exact hkeep (hp.housed k port' hport' t hold)
      · exact hnew
    · exact hkeep (hp.housed j port ((hother j hjk).symm.trans hj) t ht)

/-- The launch of an infeed changes nothing but at the infeed of its host, and it ends no other
call. -/
theorem Spares.tends_launchInfeed (hp : p.Spares K) (c : CallKey) (destinations : List Slice) :
    p.Tends c.run.host K (p.launchInfeed c destinations).1 ∧
      ∀ e ∈ Backend.opening c (p.launchInfeed c destinations).2, ∃ o, e = .settle c o := by
  have hself : ∀ o : Outcome, p.Tends c.run.host K (p.ended c o).1 ∧
      ∀ e ∈ Backend.opening c (p.ended c o).2, ∃ o, e = .settle c o := fun o =>
    ⟨hp.tends_self _, List.forall_mem_singleton.2 ⟨o, rfl⟩⟩
  cases hctx : (p.contextOf c.run.host).requireFeeds with
  | error e =>
    rw [launchInfeed, hctx]
    exact hself _
  | ok u =>
    by_cases hne : destinations = []
    · subst hne
      rw [launchInfeed, hctx]
      exact hself _
    · cases hfeeds : (p.host? c.run.host).map HostState.feeds with
      | none =>
        have hnone : p.host? c.run.host = none := Option.map_eq_none_iff.1 hfeeds
        have hhost : ∀ intakes, ({ p with intakes } : Platform).host? c.run.host = none :=
          fun _ => hnone
        obtain ⟨destination, rest, rfl⟩ := List.exists_cons_of_ne_nil hne
        have heq : p.launchInfeed c (destination :: rest) = ({ p with
            intakes := p.intakes.push { call := c, remaining := (destination :: rest).length } },
              .ok []) := by
          rw [launchInfeed, hctx]
          dsimp only
          rw [if_neg (by simp), takeAll, hhost]
        rw [heq]
        refine ⟨⟨fun _ _ => rfl, fun i g hg _ => getElem?_push_of_some hg, hp.waiting, hp.gridRuns,
          hp.deferred, fun j port hj t ht => ?_⟩, fun e he => by cases he⟩
        obtain ⟨g, hg, hhost⟩ := hp.housed j port hj t ht
        exact ⟨g, getElem?_push_of_some hg, hhost⟩
      | some feeds =>
        have heq := @launchInfeed_eq p c (fun _ => p.intakes.size) feeds hfeeds hctx rfl destinations hne
        obtain ⟨a, ha⟩ := exists_writeAll c.run.host
          ((slotsFrom c.node 0 destinations).zip feeds.infeed.buffers) p
        rw [heq]
        refine ⟨hp.tends_setInfeed (by rw [ha]; exact portOf_setArena ..) (by rw [ha]; rfl)
          (by rw [ha]; rfl) (by rw [ha]; rfl)
          (fun i g hg => ⟨g, getElem?_push_of_some hg, rfl, fun _ => rfl⟩) fun port hport t ht => ?_,
          fun e he => ?_⟩
        · have hsame : feeds = port.1 := Option.some.inj (hfeeds.symm.trans (feeds_of_portOf hport))
          subst hsame
          rcases List.mem_append.1 ht with ht | ht
          · exact .inl ht
          · obtain ⟨x, -, rfl⟩ := List.mem_map.1 ht
            exact .inr ⟨_, Array.getElem?_push_size, by rw [Gathering.call_endedAll]⟩
        · change e ∈ gathered _ at he
          unfold gathered at he
          split at he
          · exact ⟨_, (List.mem_singleton.1 he).trans (by rw [Gathering.call_endedAll])⟩
          · cases he

/-- A buffer that the host puts in changes nothing but at its infeed, and it ends no call but of that
host. -/
theorem Spares.tends_putIn (hp : p.Spares K) (k : Nat) (bytes : Bytes) :
    p.Tends k K (p.putIn k bytes).1 ∧
      ∀ e ∈ (p.putIn k bytes).2, ∃ c o, e = .settle c o ∧ c.run.host = k := by
  cases hport : p.portOf k with
  | none =>
    have hnone : p.host? k = none := Option.map_eq_none_iff.1 hport
    rw [putIn, hnone]
    exact ⟨hp.tends_self k, fun e he => by cases he⟩
  | some port =>
    have hfeeds := feeds_of_portOf hport
    cases hw : port.1.infeed.waiters with
    | nil =>
      rw [putIn_of_nil hfeeds hw]
      exact ⟨@Spares.tends_setInfeed K p hp k _ p.intakes p rfl rfl rfl rfl
        (fun i g hg => ⟨g, hg, rfl, fun _ => rfl⟩) (fun _ _ t ht => by cases ht),
        fun e he => by cases he⟩
    | cons t rest =>
      obtain ⟨g, hg, hhost⟩ := hp.housed k port hport t (by rw [hw]; exact List.mem_cons_self)
      obtain ⟨hlt, -⟩ := Array.getElem?_eq_some_iff.1 hg
      obtain ⟨write, hwrite⟩ := exists_writeFed k t.destination bytes
      rw [putIn_of_cons hfeeds hw, fill_setInfeed, fill_of_some hg, hhost]
      dsimp only
      rw [hwrite]
      refine ⟨hp.tends_setInfeed (portOf_setArena ..) rfl rfl rfl (fun i g' hg' => ?_)
        (fun port' hport' t' ht' => ?_), fun e he => ?_⟩
      · by_cases hi : t.intake = i
        · subst hi
          obtain rfl := Option.some.inj (hg.symm.trans hg')
          refine ⟨_, Array.getElem?_setIfInBounds_self_of_lt hlt, rfl, fun hne => absurd hhost hne⟩
        · exact ⟨g', by rw [Array.getElem?_setIfInBounds_ne hi]; exact hg', rfl, fun _ => rfl⟩
      · obtain rfl := Option.some.inj (hport.symm.trans hport')
        exact .inl (by rw [hw]; exact List.mem_cons_of_mem _ ht')
      · unfold gathered at he
        split at he
        · exact ⟨_, _, List.mem_singleton.1 he, hhost⟩
        · cases he

/-- The infeeds stay as they are. -/
theorem Spares.tends_modifyHost (hp : p.Spares K) (k : Nat) {g : HostState → HostState}
    (hg : ∀ s, (g s).feeds.infeed = s.feeds.infeed) : p.Tends k K (p.modifyHost k g) := by
  refine ⟨fun j hne => portOf_modifyHost_of_ne hne, fun _ _ h _ => h, hp.waiting, hp.gridRuns,
    hp.deferred, fun j port hj t ht => ?_⟩
  rw [portOf, host?_modifyHost] at hj
  split at hj
  · next hkj =>
    subst hkj
    cases hs : p.host? k with
    | none =>
      rw [hs] at hj
      cases hj
    | some s =>
      rw [hs] at hj
      obtain rfl := Option.some.inj hj
      rw [show (((g s).feeds, (g s).outfed) : _ × Array (Option Bytes)).1.infeed = _ from hg s] at ht
      exact hp.housed k (s.feeds, s.outfed) (by rw [portOf, hs]; rfl) t ht
  · exact hp.housed j port hj t ht

theorem infeed_foldl_sending (buffers : List Bytes) (s : HostState) :
    (buffers.foldl HostState.sending s).feeds.infeed = s.feeds.infeed := by
  induction buffers generalizing s with
  | nil => rfl
  | cons bytes buffers ih => exact (ih _).trans (s.infeed_sending bytes)

theorem Spares.tends_launchOutfeed (hp : p.Spares K) (c : CallKey) (sources : List Slice) :
    p.Tends c.run.host K (p.launchOutfeed c sources).1 ∧
      ∀ e ∈ Backend.opening c (p.launchOutfeed c sources).2, ∃ o, e = .settle c o := by
  unfold launchOutfeed
  dsimp only
  split
  · exact ⟨hp.tends_self _, List.forall_mem_singleton.2 ⟨_, rfl⟩⟩
  · rw [foldl_putOut]
    exact ⟨hp.tends_modifyHost _ (infeed_foldl_sending _), List.forall_mem_singleton.2 ⟨_, rfl⟩⟩

end Platform

def Primitive.IsFeed : Primitive → Prop
  | .infeed _ _ | .outfeed _ _ => True
  | .copy _ _ | .kernel _ _ _ _ | .advanceRandom _ _ _ | .placeId _ _ | .collective _
  | .customCall _ _ _ _ | .scripted _ _ _ => False

namespace Platform

variable {p : Platform} {h : Nat} {c : CallKey} {info : OpInfo}

/-- The launch of an operation that is no feed of a host leaves the feeds of that host alone. -/
theorem Spares.aside_launch (hp : p.Spares K) {op : Primitive} (hop : op.IsFeed → c.run.host ≠ h)
    (hc : ¬ K c) :
    p.Aside h K (launch c info op p).1 (Backend.opening c (launch c info op p).2) := by
  have hfeed : ∀ {p' : Platform} {effects : List (Effect Work)}, c.run.host ≠ h →
      p.Tends c.run.host K p' → (∀ e ∈ effects, ∃ o, e = .settle c o) →
      p.Aside h K p' effects := fun hne ht heffects => ht.aside hne fun e he => by
    obtain ⟨o, rfl⟩ := heffects e he
    exact hc
  cases op with
  | copy src dst => exact hp.aside_endedBy hc _
  | kernel name arguments results grid => exact hp.aside_launchKernel hc name arguments results grid
  | infeed destinations token =>
    obtain ⟨ht, he⟩ := hp.tends_launchInfeed c destinations
    exact hfeed (hop trivial) ht he
  | outfeed sources token =>
    obtain ⟨ht, he⟩ := hp.tends_launchOutfeed c sources
    exact hfeed (hop trivial) ht he
  | advanceRandom state delta generator =>
    have hmove : ∀ generators, ({ p with generators } : Platform).Spares K := fun _ =>
      ⟨hp.waiting, hp.gridRuns, hp.deferred, hp.housed⟩
    obtain ⟨hport, hintakes, hspares, heffects⟩ := (hmove _).aside_endedBy (h := h) hc _
    exact ⟨hport, hintakes, hspares, heffects⟩
  | placeId axis destination => exact hp.aside_endedBy hc _
  | collective op => exact hp.aside_launchCollective hc op
  | customCall target config operands results =>
    exact hp.aside_launchCustomCall hc target config operands results
  | scripted kind footprint script => exact hp.aside_launchScript hc script

/-! ### What is left behind -/

theorem spares_abandoned {text : String} {ts : List Participant} (hts : ∀ t ∈ ts, ¬ K t.call) :
    ∀ e ∈ abandoned text ts, Effect.Spares K e := by
  induction ts with
  | nil => simp [abandoned]
  | cons t ts ih =>
    obtain ⟨ht, hrest⟩ := List.forall_mem_cons.1 hts
    cases ts with
    | nil => exact spares_settle ht _
    | cons t' ts =>
      rw [abandoned]
      · exact List.forall_mem_cons.2 ⟨ht, ih hrest⟩
      · simp

theorem Spares.aside_handOut (hp : p.Spares K) {ts : List Participant}
    (hts : ∀ t ∈ ts, ¬ K t.call) : p.Aside h K (p.handOut ts).1 (p.handOut ts).2 := by
  cases ts with
  | nil => exact hp.aside_self (fun e he => by cases he)
  | cons t rest =>
    obtain ⟨ht, hrest⟩ := List.forall_mem_cons.1 hts
    rw [handOut_cons]
    refine hp.aside_setArena _ _ ?_
    have hgoesOn : ∀ o : Outcome,
        ∀ e ∈ [(.settle t.call o : Effect Work), .work (.handOut rest)], Effect.Spares K e :=
      fun o => List.forall_mem_cons.2 ⟨ht, List.forall_mem_singleton.2 hrest⟩
    rcases (Arena.receive (p.received t) t.destination (p.arenaOf t.call.run.host)).2 with
      (e | text) | u
    · exact hgoesOn _
    · exact spares_abandoned hts
    · exact hgoesOn _

theorem Spares.aside_attend (hp : p.Spares K) {t : Participant} (ht : ¬ K t.call) :
    p.Aside h K (p.attend t).1 (p.attend t).2 := by
  cases hend : p.transport.contributions? t.exchange.kind t.cell with
  | some r =>
    rw [attend_of_settled p hend]
    exact hp.aside_handOut (List.forall_mem_singleton.2 ht)
  | none =>
    rw [attend_of_pending p hend]
    exact hp.aside (by rfl) (by rfl)
      (fun t' ht' => (Transport.mem_waiting_register ht').elim (fun heq => heq ▸ ht) (hp.waiting t'))
      hp.gridRuns hp.deferred (fun e he => by cases he)

theorem Spares.gridRuns_set (hp : p.Spares K) {gridRun : Nat} {g : GridRun}
    (hg : p.gridRuns[gridRun]? = some g) {gathering : Gathering}
    (hcall : gathering.call = g.gathering.call) (i : Nat) (g' : GridRun)
    (hg' : (p.gridRuns.setIfInBounds gridRun { g with gathering })[i]? = some g') :
    ¬ K g'.gathering.call := by
  rw [Array.getElem?_setIfInBounds] at hg'
  split at hg'
  · split at hg'
    · obtain rfl := Option.some.inj hg'
      exact fun hK => hp.gridRuns gridRun g hg (hcall ▸ hK)
    · cases hg'
  · exact hp.gridRuns i g' hg'

theorem Spares.aside_runThread (hp : p.Spares K) (gridRun linear : Nat) :
    p.Aside h K (p.runThread gridRun linear).1 (p.runThread gridRun linear).2.1 := by
  cases hrun : p.gridRuns[gridRun]? with
  | none =>
    rw [runThread, hrun]
    exact hp.aside_self (fun e he => by cases he)
  | some g =>
    rw [runThread_of_some hrun]
    refine hp.aside (portOf_setArena ..) (by rfl) (fun t ht => hp.waiting t ht) (fun i g' hg' => ?_)
      (fun i c hc => hp.deferred i c hc) (spares_gathered fun hK => ?_)
    · exact hp.gridRuns_set hrun (call_threadEnd _ _ _) i g' hg'
    · exact hp.gridRuns gridRun g hrun (call_threadEnd g.gathering _ _ ▸ hK)

theorem Spares.aside_perform (hp : p.Spares K) {x : Work} (hx : x.Spares K) :
    p.Aside h K (backend.perform x p).1 (backend.perform x p).2.1 := by
  cases x with
  | attend t => exact hp.aside_attend (hx t List.mem_cons_self)
  | resolve values t =>
    refine hp.aside (by rfl) (by rfl)
      (fun t' ht' => hp.waiting t' (Transport.mem_waiting_settle (.inr ht'))) hp.gridRuns hp.deferred
      (List.forall_mem_singleton.2 fun t' ht' => ?_)
    rcases List.mem_append.1 ht' with ht' | ht'
    · exact hp.waiting t' (Transport.mem_waiting_settle (.inl ht'))
    · exact List.mem_singleton.1 ht' ▸ hx t List.mem_cons_self
  | handOut ts => exact hp.aside_handOut hx
  | thread gridRun linear => exact hp.aside_runThread gridRun linear

theorem Spares.aside_discard (hp : p.Spares K) {x : Work} (hx : x.Spares K) :
    p.Aside h K (backend.discard x p).1 (backend.discard x p).2 := by
  cases x with
  | attend t | resolve values t =>
    exact hp.aside_self (spares_settle (hx t List.mem_cons_self) _)
  | handOut ts =>
    refine hp.aside_self fun e he => ?_
    obtain ⟨t, ht, rfl⟩ := List.mem_map.1 he
    exact hx t ht
  | thread gridRun linear =>
    change p.Aside h K (p.loseThread gridRun).1 (p.loseThread gridRun).2
    unfold loseThread
    split
    · exact hp.aside_self (fun e he => by cases he)
    · next g hg =>
      exact hp.aside (by rfl) (by rfl) hp.waiting
        (hp.gridRuns_set hg (show g.gathering.lose.call = g.gathering.call from rfl)) hp.deferred
        (spares_gathered (hp.gridRuns gridRun g hg))

/-- Whatever happens outside but that a buffer is put in, or taken from the host, leaves the feeds of
the host alone, and so are all calls that are spared. -/
theorem Occasion.aside_of_ne {change : Platform → Platform × List (Effect Work)} (ho : Occasion change)
    (hp : p.Spares K) (hput : ∀ k bytes, change ≠ fun p => p.putIn k bytes)
    (htake : change ≠ fun p => (p.takeOut h, [])) : p.Aside h K (change p).1 (change p).2 := by
  cases ho with
  | time pass => exact hp.aside_of_hosts rfl rfl rfl rfl rfl (fun e he => by cases he)
  | expire x =>
    refine hp.aside (by rfl) (by rfl)
      (fun t ht => hp.waiting t (Transport.mem_waiting_expire (.inr ht))) hp.gridRuns hp.deferred
      (List.forall_mem_singleton.2 fun t ht => hp.waiting t (Transport.mem_waiting_expire (.inl ht)))
  | putIn k bytes => exact absurd rfl (hput k bytes)
  | takeOut k =>
    exact (hp.tends_modifyHost k HostState.infeed_fetching).aside (fun heq => htake (by rw [heq]))
      (fun e he => by cases he)
  | endDeferred i o =>
    dsimp only [Platform.endDeferred]
    split
    · next c hc =>
      have hsome : p.deferred[i]? = some (some c) := by
        cases hd : p.deferred[i]? with
        | none =>
          rw [hd] at hc
          cases hc
        | some d =>
          rw [hd] at hc
          exact congrArg some hc
      refine hp.aside (by rfl) (by rfl) hp.waiting hp.gridRuns (fun j d hd => ?_)
        (spares_settle (hp.deferred i c hsome) o)
      rw [Array.getElem?_setIfInBounds] at hd
      split at hd
      · split at hd <;> cases hd
      · exact hp.deferred j d hd
    · exact hp.aside_self (fun e he => by cases he)

theorem Occasion.aside {change : Platform → Platform × List (Effect Work)} (ho : Occasion change)
    (hK : ∀ c, K c → c.run.host = h) (hp : p.Spares K) (hput : ∀ bytes, change ≠ fun p => p.putIn h bytes)
    (htake : change ≠ fun p => (p.takeOut h, [])) : p.Aside h K (change p).1 (change p).2 := by
  by_cases hother : ∃ k bytes, change = fun p => p.putIn k bytes
  · obtain ⟨k, bytes, rfl⟩ := hother
    obtain ⟨ht, heffects⟩ := hp.tends_putIn k bytes
    have hne : k ≠ h := fun heq => hput bytes (by rw [heq])
    refine ht.aside hne fun e he => ?_
    obtain ⟨c, o, rfl, hhost⟩ := heffects e he
    exact fun hc => hne (hhost.symm.trans (hK c hc))
  · exact ho.aside_of_ne hp (fun k bytes heq => hother ⟨k, bytes, heq⟩) htake

end Platform

end OpFlow
