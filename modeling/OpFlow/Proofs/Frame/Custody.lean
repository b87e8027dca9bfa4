import OpFlow.Proofs.Collective.Changes
import OpFlow.Proofs.Frame.Operations
import OpFlow.Proofs.Machine.Device

/-!
Whatever an operation leaves behind stays within its declared uses. The start of an operation, work
that is carried out or given up, and what happens outside keep everything that is in flight in
custody: participants who wait, threads of kernels and requests for buffers are about slices that
their hosts' uses let them write, and so is all work that is asked for.
-/
namespace OpFlow

open Machine (CallKey Effect)

namespace Cells

variable {α κ : Type} (cs : Cells α κ) {w w' : κ}

theorem mem_allWaiters_register {c : Nat} (h : w' ∈ (cs.register c w).allWaiters) :
    w' = w ∨ w' ∈ cs.allWaiters := by
  by_cases hc : c < cs.size
  · exact List.mem_cons.1 ((perm_allWaiters_register cs hc w).mem_iff.1 h)
  · have hsame : cs.register c w = cs := by
      refine Array.ext_getElem? fun i => ?_
      rw [register, Array.getElem?_modify]
      split
      · next hi =>
        subst hi
        simp [Array.getElem?_eq_none (Nat.le_of_not_lt hc)]
      · rfl
    exact .inr (hsame ▸ h)

theorem mem_allWaiters_settle {c : Nat} {r : Except Error α}
    (h : w ∈ (cs.settle c r).2 ∨ w ∈ (cs.settle c r).1.allWaiters) : w ∈ cs.allWaiters :=
  (perm_allWaiters_settle cs c r).mem_iff.1 (List.mem_append.2 h)

end Cells

namespace Transport

variable {κ : Type} {t : Transport κ} {w w' : κ}

theorem mem_waiting_set {k : ExchangeKind} {r : Rendezvous (List Bytes) κ}
    (h : w ∈ (t.set k r).waiting) : w ∈ r.cells.allWaiters ∨ w ∈ t.waiting := by
  obtain ⟨l, hl⟩ := mem_waiting.1 h
  rw [get_set] at hl
  split at hl
  · exact .inl hl
  · exact .inr (mem_waiting.2 ⟨l, hl⟩)

theorem mem_waiting_register {k : ExchangeKind} {c : Nat}
    (h : w' ∈ (t.register k c w).waiting) : w' = w ∨ w' ∈ t.waiting :=
  (mem_waiting_set h).elim
    (fun h => (Cells.mem_allWaiters_register _ h).imp id fun h => mem_waiting.2 ⟨k, h⟩) .inr

theorem mem_waiting_settle {k : ExchangeKind} {c : Nat} {values : List (List Bytes)}
    (h : w ∈ (t.settle k c values).2 ∨ w ∈ (t.settle k c values).1.waiting) : w ∈ t.waiting := by
  have hcells : ∀ {w}, (w ∈ ((t.get k).settle c (.ok values)).2 ∨
      w ∈ ((t.get k).settle c (.ok values)).1.cells.allWaiters) → w ∈ t.waiting := fun h =>
    mem_waiting.2 ⟨k, Cells.mem_allWaiters_settle _ h⟩
  rcases h with h | h
  · exact hcells (.inl h)
  · exact (mem_waiting_set h).elim (fun h => hcells (.inr h)) id

theorem mem_waiting_expire {x : Expiry}
    (h : w ∈ (t.expire x).2 ∨ w ∈ (t.expire x).1.waiting) : w ∈ t.waiting := by
  have hexpire : ∀ {r : Rendezvous (List Bytes) κ} {w}, (w ∈ (r.expire x.key x.cell).2 ∨
      w ∈ (r.expire x.key x.cell).1.cells.allWaiters) → w ∈ r.cells.allWaiters := fun {r w} h => by
    rw [← r.cells_lapse x.key x.cell]
    unfold Rendezvous.expire at h
    rcases hr : r.lapse x.key x.cell with ⟨r', _ | e⟩
    · rw [hr] at h
      simpa using h
    · rw [hr] at h
      exact Cells.mem_allWaiters_settle _ h
  rcases h with h | h
  · exact mem_waiting.2 ⟨x.kind, hexpire (.inl h)⟩
  · exact (mem_waiting_set h).elim (fun h => mem_waiting.2 ⟨x.kind, hexpire (.inr h)⟩) id

end Transport

namespace Platform

variable {U : Nat → Set BufferUse} {p q : Platform} {c : CallKey} {info : OpInfo}
  {effects : List (Effect Work)}

/-- A platform holds everything in flight in custody, and the work that is asked for may write where
it is going to. -/
structure Hands (U : Nat → Set BufferUse) (p : Platform) (effects : List (Effect Work)) : Prop where
  custody : p.Custody U
  work : ∀ e ∈ effects, ∀ x, e.work? = some x → x.Declared U

theorem Custody.settles (hp : p.Custody U) (h : ∀ e ∈ effects, e.work? = none) : p.Hands U effects :=
  ⟨hp, fun e he x hx => by rw [h e he] at hx; cases hx⟩

theorem Custody.settle (hp : p.Custody U) (c : CallKey) (o : Outcome) :
    p.Hands U [.settle c o] := hp.settles (by simp [Effect.work?])

theorem work?_gathered {g : Gathering} : ∀ e ∈ gathered g, e.work? = none := by
  unfold gathered
  split <;> simp [Effect.work?]

theorem FeedTaker.Declared.keep {t : FeedTaker} (ht : t.Declared U p.intakes)
    (hq : p.KeepsIntakes q) : t.Declared U q.intakes := by
  obtain ⟨g, hg, hw⟩ := ht
  obtain ⟨g', hg', hcall⟩ := hq _ g hg
  exact ⟨g', hg', hcall ▸ hw⟩

/-! ### Parts of the platform change -/

theorem Custody.modifyHost (hp : p.Custody U) (h : Nat) {g : HostState → HostState}
    (hg : ∀ s, ∀ t ∈ (g s).feeds.infeed.waiters,
      t ∈ s.feeds.infeed.waiters ∨ t.Declared U p.intakes) : (p.modifyHost h g).Custody U where
  waiting := hp.waiting
  gridRuns := hp.gridRuns
  takers k s hs t ht := by
    rw [host?_modifyHost] at hs
    split at hs
    · obtain ⟨s', hs', rfl⟩ := Option.map_eq_some_iff.1 hs
      exact (hg s' t ht).elim (hp.takers k s' hs' t) id
    · exact hp.takers k s hs t ht

theorem Custody.setArena (hp : p.Custody U) (h : Nat) (a : Arena) : (p.setArena h a).Custody U :=
  hp.modifyHost h fun _ _ => .inl

theorem Custody.setTransport (hp : p.Custody U) {transport : Transport Participant}
    (ht : ∀ t ∈ transport.waiting, t.Declared U) (timers : Timers Expiry) :
    ({ p with transport, timers } : Platform).Custody U := ⟨ht, hp.gridRuns, hp.takers⟩

theorem Custody.setIntakes (hp : p.Custody U) {intakes : Array Gathering}
    (hkeeps : p.KeepsIntakes { p with intakes }) : ({ p with intakes } : Platform).Custody U :=
  ⟨hp.waiting, hp.gridRuns, fun k s hs t ht =>
    FeedTaker.Declared.keep (q := { p with intakes }) (hp.takers k s hs t ht) hkeeps⟩

theorem Custody.setGridRuns (hp : p.Custody U) {gridRuns : Array GridRun}
    (hruns : ∀ (i : Nat) g, gridRuns[i]? = some g → g.Declared U) :
    ({ p with gridRuns } : Platform).Custody U := ⟨hp.waiting, hruns, hp.takers⟩

theorem Custody.onArena (hp : p.Custody U) (h : Nat) (k : Arena → Except Error Arena) :
    (p.onArena h k).1.Custody U := by
  rw [onArena_eq]
  exact hp.setArena h _

/-! ### What operations do -/

theorem Custody.hands_endedBy (hp : p.Custody U) (k : Arena → Except Error Arena) :
    (p.endedBy c k).1.Hands U ((p.endedBy c k).2.toOption.getD []) :=
  (hp.onArena c.run.host k).settle c _

theorem work?_endingOf (r : Except Fault Unit) :
    ∀ e ∈ (endingOf c r).toOption.getD [], e.work? = none := by
  rcases r with (e | text) | u <;> simp [endingOf, Except.toOption, Effect.work?]

theorem Custody.hands_endedWith (hp : p.Custody U) (a : Arena) (r : Except Fault Unit) :
    (p.endedWith c a r).1.Hands U ((p.endedWith c a r).2.toOption.getD []) := by
  rw [endedWith_eq]
  exact (hp.setArena _ a).settles (work?_endingOf r)

theorem Custody.hands_launchKernel (hp : p.Custody U) {name : String} {arguments results : List Slice}
    {grid : Grid} (hctx : (p.contextOf c.run.host).Framed)
    (harguments : ∀ s ∈ arguments, .read s ∈ U c.run.host)
    (hresults : ∀ s ∈ results, .write s ∈ U c.run.host) :
    (p.launchKernel c name arguments results grid).1.Hands U
      ((p.launchKernel c name arguments results grid).2.toOption.getD []) := by
  cases hfind : (p.contextOf c.run.host).requireKernels >>= fun ks => Kernel.find ks name with
  | error e =>
    rw [launchKernel_of_error hfind]
    exact hp.settle c _
  | ok kernel =>
    rw [launchKernel_of_find hfind]
    unfold startThreads
    split
    · exact hp.hands_endedWith _ _
    · refine ⟨hp.setGridRuns fun i g hg => ?_, fun e he x hx => ?_⟩
      · rw [Array.getElem?_push] at hg
        split at hg
        · obtain rfl := Option.some.inj hg
          exact ⟨framed_of_find hctx hfind, harguments, hresults⟩
        · exact hp.gridRuns i g hg
      · obtain ⟨linear, -, rfl⟩ := List.mem_map.1 he
        obtain rfl := Option.some.inj hx
        exact fun t ht => by cases ht
    · exact hp.hands_endedWith _ _

theorem Custody.hands_fill (hp : p.Custody U) (t : FeedTaker) (bytes : Bytes) :
    (p.fill t bytes).1.Hands U (p.fill t bytes).2 := by
  cases hg : p.intakes[t.intake]? with
  | none =>
    rw [fill, hg]
    exact hp.settles (by simp)
  | some g =>
    have hwrite : (p.writeFed g.call.run.host t.destination bytes).1.Custody U := by
      unfold writeFed
      split
      · exact hp
      · exact hp.onArena _ _
    rw [fill_of_some hg]
    exact (hwrite.setIntakes (keepsIntakes_writeFed hg bytes)).settles work?_gathered

theorem Custody.feeds (hp : p.Custody U) {h : Nat} {feeds : FeedPair FeedTaker Nat}
    (hfeeds : (p.host? h).map HostState.feeds = some feeds) :
    ∀ t ∈ feeds.infeed.waiters, t.Declared U p.intakes := by
  obtain ⟨s, hs, rfl⟩ := Option.map_eq_some_iff.1 hfeeds
  exact hp.takers h s hs

/-- Something happens to the infeed of a host, after which all who wait may write. -/
theorem Custody.hands_serve (hp : p.Custody U)
    {act : Feed FeedTaker → Feed FeedTaker × Option (FeedTaker × Bytes)} (h : Nat)
    (hact : ∀ f : Feed FeedTaker, ∀ t ∈ (act f).1.waiters, t ∈ f.waiters ∨ t.Declared U p.intakes) :
    (p.serve act h).1.Hands U (p.serve act h).2 := by
  unfold serve
  split
  · exact hp.settles (by simp)
  · next feeds hfeeds =>
    have hmodify : (p.modifyHost h fun s => { s with feeds :=
        { s.feeds with infeed := (act feeds.infeed).1 } }).Custody U :=
      hp.modifyHost h fun s t ht => .inr ((hact _ t ht).elim (hp.feeds hfeeds t) id)
    dsimp only
    split
    · exact hmodify.hands_fill _ _
    · exact hmodify.settles (by simp)

theorem mem_waiters_taking {t t' : FeedTaker} {f : Feed FeedTaker}
    (h : t' ∈ (taking t f).1.waiters) : t' ∈ f.waiters ∨ t' = t := by
  dsimp only [taking, Feed.dequeue] at h
  split at h
  · exact (List.mem_append.1 h).imp id List.mem_singleton.1
  · exact .inl h

theorem Custody.hands_takeAll (hp : p.Custody U) {h intake : Nat} {g : Gathering}
    (hg : p.intakes[intake]? = some g) (part : Nat) {destinations : List Slice}
    (hw : ∀ s ∈ destinations, .write s ∈ U g.call.run.host) :
    (p.takeAll h intake part destinations).1.Hands U (p.takeAll h intake part destinations).2 := by
  induction destinations generalizing p g part with
  | nil => exact hp.settles (by simp [takeAll])
  | cons destination rest ih =>
    have hfirst : FeedTaker.Declared U p.intakes ⟨intake, part, destination⟩ :=
      ⟨g, hg, hw _ List.mem_cons_self⟩
    have hone : (p.serve (taking ⟨intake, part, destination⟩) h).1.Hands U
        (p.serve (taking ⟨intake, part, destination⟩) h).2 :=
      hp.hands_serve h fun f t ht => by
        rcases mem_waiters_taking ht with ht | rfl
        · exact .inl ht
        · exact .inr hfirst
    obtain ⟨g', hg', hcall⟩ := keepsIntakes_serve p (taking ⟨intake, part, destination⟩) h intake g hg
    have hrest := ih hone.custody hg' (part + 1) fun s hs => by
      rw [hcall]
      exact hw s (List.mem_cons_of_mem _ hs)
    rw [takeAll_cons]
    exact ⟨hrest.custody, fun e he => (List.mem_append.1 he).elim (hone.work e) (hrest.work e)⟩

theorem Custody.hands_launchInfeed (hp : p.Custody U) {destinations : List Slice}
    (hw : ∀ s ∈ destinations, .write s ∈ U c.run.host) :
    (p.launchInfeed c destinations).1.Hands U
      ((p.launchInfeed c destinations).2.toOption.getD []) := by
  unfold launchInfeed
  split
  · exact hp.settle c _
  · split
    · exact hp.settle c _
    · have hkeeps : p.KeepsIntakes { p with
          intakes := p.intakes.push ({ call := c, remaining := destinations.length }) } := fun i g hi =>
        ⟨g, by
          obtain ⟨hlt, -⟩ := Array.getElem?_eq_some_iff.1 hi
          rw [Array.getElem?_push, if_neg (Nat.ne_of_lt hlt)]
          exact hi, rfl⟩
      exact (hp.setIntakes hkeeps).hands_takeAll (g := { call := c, remaining := destinations.length })
        (by simp) 0 hw

theorem Custody.foldl_putOut (hp : p.Custody U) (h : Nat) (buffers : List Bytes) :
    (buffers.foldl (fun p b => p.putOut h b) p).Custody U := by
  induction buffers generalizing p with
  | nil => exact hp
  | cons b buffers ih => exact ih (hp.modifyHost h fun _ _ => .inl)

theorem Custody.hands_launchOutfeed (hp : p.Custody U) (sources : List Slice) :
    (p.launchOutfeed c sources).1.Hands U ((p.launchOutfeed c sources).2.toOption.getD []) := by
  unfold launchOutfeed
  dsimp only
  split
  · exact hp.settle c _
  · exact (hp.foldl_putOut c.run.host _).settle c _

theorem declared_joined {e : Entry} {destination : Slice} (hw : .write destination ∈ U c.run.host)
    (entrance : Entrance (List Bytes)) :
    ∀ x ∈ joined c e destination entrance, ∀ y, x.work? = some y → y.Declared U := by
  rcases entrance with error | ⟨cell, isNew⟩ | ⟨cell, _ | values⟩ <;>
    simp [joined, Effect.work?, Work.Declared, Work.participants, Participant.Declared, hw]

theorem Custody.hands_launchCollective (hp : p.Custody U) {op : Collective}
    (hw : .write op.destination ∈ U c.run.host) : (p.launchCollective c info op).1.Hands U
      ((p.launchCollective c info op).2.toOption.getD []) := by
  cases h : p.entry c info op with
  | error e =>
    rw [launchCollective_of_error p h]
    exact hp.settle c _
  | ok e =>
    obtain ⟨timers, heq⟩ := launchCollective_of_ok p h
    rw [heq]
    exact ⟨hp.setTransport (fun t ht => hp.waiting t ((waiting_enter p.transport e.exchange e.key
      e.rank e.blocks).mem_iff.1 ht)) timers, declared_joined hw _⟩

theorem Custody.hands_endCall (hp : p.Custody U) (target : String)
    (r : Option Allocator × Except Fault Unit) : (p.endCall c target r).1.Hands U
      ((p.endCall c target r).2.toOption.getD []) := by
  have hmodify : (p.modifyHost c.run.host fun h => { h with allocator := r.1 }).Custody U :=
    hp.modifyHost c.run.host fun _ _ => .inl
  exact hmodify.settles (work?_endingOf _)

theorem Custody.hands_launchCustomCall (hp : p.Custody U) (target config : String)
    (operands results : List Slice) :
    (p.launchCustomCall c target config operands results).1.Hands U
      ((p.launchCustomCall c target config operands results).2.toOption.getD []) := by
  cases hfind : handlerOf (p.contextOf c.run.host) target with
  | error e =>
    rw [launchCustomCall_of_error hfind]
    exact hp.settle c _
  | ok found =>
    rw [launchCustomCall_of_ok hfind]
    exact (hp.setArena c.run.host _).hands_endCall target _

/-- The start of an operation leaves only behind what may write under the uses that the operation
declares. -/
theorem Custody.hands_launch (hp : p.Custody U) {op : Primitive} (hop : op.IsGenuine)
    (hctx : (p.contextOf c.run.host).Framed) (hU : ∀ u ∈ op.footprint.buffers, u ∈ U c.run.host) :
    (launch c info op p).1.Hands U ((launch c info op p).2.toOption.getD []) := by
  cases op with
  | copy src dst => exact hp.hands_endedBy _
  | kernel name arguments results grid =>
    exact hp.hands_launchKernel hctx (mem_of_frame hU).1 (mem_of_frame hU).2
  | infeed destinations token =>
    exact hp.hands_launchInfeed fun s hs => hU _ (List.mem_map_of_mem hs)
  | outfeed sources token => exact hp.hands_launchOutfeed sources
  | advanceRandom state delta generator =>
    have hmove : ∀ generators, ({ p with generators } : Platform).Custody U := fun _ =>
      ⟨hp.waiting, hp.gridRuns, hp.takers⟩
    exact (hmove _).hands_endedBy _
  | placeId axis destination => exact hp.hands_endedBy _
  | collective op =>
    exact hp.hands_launchCollective (hU _ (List.mem_cons_of_mem _ List.mem_cons_self))
  | customCall target config operands results => exact hp.hands_launchCustomCall target config _ _
  | scripted => exact hop.elim

/-! ### What is left behind -/

theorem work?_abandoned (text : String) (ts : List Participant) :
    ∀ e ∈ abandoned text ts, e.work? = none := by
  induction ts with
  | nil => simp [abandoned]
  | cons t ts ih =>
    cases ts with
    | nil => simp [abandoned, Effect.work?]
    | cons t' ts =>
      rw [abandoned]
      · exact List.forall_mem_cons.2 ⟨rfl, ih⟩
      · simp

theorem Custody.hands_handOut (hp : p.Custody U) {ts : List Participant}
    (hts : ∀ t ∈ ts, t.Declared U) : (p.handOut ts).1.Hands U (p.handOut ts).2 := by
  cases ts with
  | nil => exact hp.settles (by simp [handOut])
  | cons t rest =>
    rw [handOut_cons]
    refine ⟨hp.setArena _ _, ?_⟩
    have hrest : ∀ e' : Effect Work, e' = .work (.handOut rest) → ∀ x, e'.work? = some x →
        x.Declared U := fun e' he' x hx => by
      obtain rfl := Option.some.inj (he' ▸ hx)
      exact fun t' ht' => hts t' (List.mem_cons_of_mem _ ht')
    have hsettle : ∀ (o : Outcome) x, Effect.work? (.settle t.call o : Effect Work) = some x →
        x.Declared U := fun o x hx => by cases hx
    rcases (Arena.receive (p.received t) t.destination (p.arenaOf t.call.run.host)).2 with
      (e | text) | u
    · exact List.forall_mem_cons.2 ⟨hsettle _, List.forall_mem_singleton.2 (hrest _ rfl)⟩
    · exact fun e he x hx => by rw [work?_abandoned text _ e he] at hx; cases hx
    · exact List.forall_mem_cons.2 ⟨hsettle _, List.forall_mem_singleton.2 (hrest _ rfl)⟩

theorem Custody.hands_attend (hp : p.Custody U) {t : Participant} (ht : t.Declared U) :
    (p.attend t).1.Hands U (p.attend t).2 := by
  cases hend : p.transport.contributions? t.exchange.kind t.cell with
  | some r =>
    rw [attend_of_settled p hend]
    exact hp.hands_handOut (by simpa using ht)
  | none =>
    rw [attend_of_pending p hend]
    exact (hp.setTransport (fun t' ht' => (Transport.mem_waiting_register ht').elim
      (fun h => h ▸ ht) (hp.waiting t')) p.timers).settles (by simp)

theorem Custody.endThread (hp : p.Custody U) {gridRun : Nat} {g : GridRun}
    (hg : p.gridRuns[gridRun]? = some g) {gathering : Gathering}
    (hcall : gathering.call = g.gathering.call) :
    ∀ (i : Nat) g', (p.gridRuns.setIfInBounds gridRun { g with gathering })[i]? = some g' →
      g'.Declared U := fun i g' hg' => by
  rw [Array.getElem?_setIfInBounds] at hg'
  split at hg'
  · split at hg'
    · obtain rfl := Option.some.inj hg'
      obtain ⟨hkernel, harguments, hresults⟩ := hp.gridRuns gridRun g hg
      rw [← hcall] at harguments hresults
      exact ⟨hkernel, harguments, hresults⟩
    · cases hg'
  · exact hp.gridRuns i g' hg'

theorem call_threadEnd (g : Gathering) (linear : Nat) (r : Except Fault Unit) :
    (threadEnd g linear r).1.call = g.call := by
  rcases r with (e | text) | u <;> rfl

theorem Custody.hands_runThread (hp : p.Custody U) (gridRun linear : Nat) :
    (p.runThread gridRun linear).1.Hands U (p.runThread gridRun linear).2.1 := by
  cases hrun : p.gridRuns[gridRun]? with
  | none =>
    rw [runThread, hrun]
    exact hp.settles (by simp)
  | some g =>
    rw [runThread_of_some hrun]
    exact ((hp.setArena _ _).setGridRuns ((hp.setArena _ _).endThread hrun
      (call_threadEnd _ _ _))).settles work?_gathered

theorem Custody.hands_perform (hp : p.Custody U) {x : Work} (hx : x.Declared U) :
    (backend.perform x p).1.Hands U (backend.perform x p).2.1 := by
  cases x with
  | attend t => exact hp.hands_attend (hx t List.mem_cons_self)
  | resolve values t =>
    refine ⟨hp.setTransport (fun t' ht' => hp.waiting t' (Transport.mem_waiting_settle (.inr ht')))
      p.timers, fun e he x hx' => ?_⟩
    obtain rfl := List.mem_singleton.1 he
    obtain rfl := Option.some.inj hx'
    intro t' ht'
    rcases List.mem_append.1 ht' with ht' | ht'
    · exact hp.waiting t' (Transport.mem_waiting_settle (.inl ht'))
    · exact List.mem_singleton.1 ht' ▸ hx t List.mem_cons_self
  | handOut ts => exact hp.hands_handOut hx
  | thread gridRun linear => exact hp.hands_runThread gridRun linear

theorem Custody.hands_discard (hp : p.Custody U) (x : Work) :
    (backend.discard x p).1.Hands U (backend.discard x p).2 := by
  cases x with
  | attend t => exact hp.settle _ _
  | resolve values t => exact hp.settle _ _
  | handOut ts => exact hp.settles (by simp [backend, Effect.work?])
  | thread gridRun linear =>
    change (p.loseThread gridRun).1.Hands U (p.loseThread gridRun).2
    unfold loseThread
    split
    · exact hp.settles (by simp)
    · next g hg => exact (hp.setGridRuns (hp.endThread hg
        (show g.gathering.lose.call = g.gathering.call from rfl))).settles work?_gathered

end Platform

end OpFlow
