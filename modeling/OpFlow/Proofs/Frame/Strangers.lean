import OpFlow.Proofs.Feed.Bystanders
import OpFlow.Proofs.Frame.Coverage
import OpFlow.Proofs.Machine.Endings
import OpFlow.Proofs.Machine.Prompt

/-!
Calls that the platform knows nothing of. It comes to know of a call only when its operation starts,
and it ends no other. So all that it ends are leaf operations that have been called; and an operation
that leaves nothing behind when it starts ends only as its start says, whatever happens next.
-/
namespace OpFlow

open Machine (Backend CallKey Crew Effect Item World)

namespace Platform

variable {p p' : Platform} {c c' : CallKey} {info : OpInfo} {k : Nat} {effects : List (Effect Work)}

def FeedsOthers (p : Platform) (c : CallKey) (k : Nat) : Prop :=
  ∀ port, p.portOf k = some port → ∀ t ∈ port.1.infeed.waiters,
    ∃ g, p.intakes[t.intake]? = some g ∧ g.call ≠ c

structure Ignores (p : Platform) (c : CallKey) : Prop where
  spares : p.Spares (· = c)
  feeds : ∀ k, p.FeedsOthers c k

theorem Ignores.feedsOthers_of_aside (hp : p.Ignores c) (h : p.Aside k (· = c) p' effects) :
    p'.FeedsOthers c k := fun port hport t ht => by
  rw [h.port] at hport
  obtain ⟨g, hg, hne⟩ := hp.feeds k port hport t ht
  obtain ⟨g', hg', hhost⟩ := hp.spares.housed k port hport t ht
  obtain rfl := Option.some.inj (hg.symm.trans hg')
  exact ⟨g, h.intakes _ g hg hhost, hne⟩

theorem Ignores.of_aside (hp : p.Ignores c) (h : ∀ j, j ≠ k → p.Aside j (· = c) p' effects)
    (hk : p'.FeedsOthers c k) : p'.Ignores c ∧ ∀ e ∈ effects, Effect.Spares (· = c) e := by
  have hnext := h (k + 1) (Nat.succ_ne_self k)
  refine ⟨⟨hnext.spares, fun j => ?_⟩, hnext.effects⟩
  by_cases hj : j = k
  · exact hj ▸ hk
  · exact hp.feedsOthers_of_aside (h j hj)

theorem Ignores.of_all_aside (hp : p.Ignores c) (h : ∀ j, p.Aside j (· = c) p' effects) :
    p'.Ignores c ∧ ∀ e ∈ effects, Effect.Spares (· = c) e :=
  hp.of_aside (fun j _ => h j) (hp.feedsOthers_of_aside (h 0))

theorem Ignores.feedsOthers_modifyHost (hp : p.Ignores c) {g : HostState → HostState}
    (hg : ∀ s, (g s).feeds.infeed = s.feeds.infeed) : (p.modifyHost k g).FeedsOthers c k :=
  fun port hport t ht => by
    rw [portOf, host?_modifyHost, if_pos rfl] at hport
    obtain ⟨s', hs', rfl⟩ := Option.map_eq_some_iff.1 hport
    obtain ⟨s, hs, rfl⟩ := Option.map_eq_some_iff.1 hs'
    exact hp.feeds k (s.feeds, s.outfed) (by rw [portOf, hs]; rfl) t (hg s ▸ ht)

/-- An infeed that starts comes to wait for its own operation. -/
theorem Ignores.feedsOthers_launchInfeed (hp : p.Ignores c) (hc : c' ≠ c) (destinations : List Slice) :
    (p.launchInfeed c' destinations).1.FeedsOthers c c'.run.host := by
  cases hctx : (p.contextOf c'.run.host).requireFeeds with
  | error e =>
    rw [launchInfeed, hctx]
    exact hp.feeds _
  | ok u =>
    by_cases hne : destinations = []
    · subst hne
      rw [launchInfeed, hctx]
      exact hp.feeds _
    · cases hfeeds : (p.host? c'.run.host).map HostState.feeds with
      | none =>
        have hnone : p.host? c'.run.host = none := Option.map_eq_none_iff.1 hfeeds
        obtain ⟨destination, rest, rfl⟩ := List.exists_cons_of_ne_nil hne
        have hsame : (p.launchInfeed c' (destination :: rest)).1.hosts = p.hosts := by
          have hhost : ∀ intakes, ({ p with intakes } : Platform).host? c'.run.host = none :=
            fun _ => hnone
          rw [launchInfeed, hctx]
          dsimp only
          rw [if_neg (by simp), takeAll, hhost]
        intro port hport
        rw [portOf, host?, hsame, ← host?, hnone] at hport
        cases hport
      | some feeds =>
        rw [@launchInfeed_eq p c' (fun _ => p.intakes.size) feeds hfeeds hctx rfl destinations hne]
        obtain ⟨a, ha⟩ := exists_writeAll c'.run.host
          ((slotsFrom c'.node 0 destinations).zip feeds.infeed.buffers) p
        intro port hport t ht
        dsimp only at hport ⊢
        rw [ha] at hport
        change ((p.setArena c'.run.host a).setInfeed c'.run.host _).portOf c'.run.host = some port at hport
        rw [portOf_setInfeed, portOf_setArena] at hport
        obtain ⟨port', hport', rfl⟩ := Option.map_eq_some_iff.1 hport
        obtain rfl : feeds = port'.1 := Option.some.inj (hfeeds.symm.trans (feeds_of_portOf hport'))
        rcases List.mem_append.1 ht with ht | ht
        · obtain ⟨g, hg, hne⟩ := hp.feeds _ port' hport' t ht
          exact ⟨g, getElem?_push_of_some hg, hne⟩
        · obtain ⟨x, -, rfl⟩ := List.mem_map.1 ht
          exact ⟨_, Array.getElem?_push_size, by rwa [Gathering.call_endedAll]⟩

theorem Ignores.feedsOthers_launchOutfeed (hp : p.Ignores c) (sources : List Slice) :
    (p.launchOutfeed c' sources).1.FeedsOthers c c'.run.host := by
  unfold launchOutfeed
  dsimp only
  split
  · exact hp.feeds _
  · rw [foldl_putOut]
    exact hp.feedsOthers_modifyHost (infeed_foldl_sending _)

theorem Ignores.launch (hp : p.Ignores c) (hc : c' ≠ c) (info : OpInfo) (op : Primitive) :
    (Platform.launch c' info op p).1.Ignores c ∧
      ∀ e ∈ Backend.opening c' (Platform.launch c' info op p).2, Effect.Spares (· = c) e := by
  have haside : ∀ j, (op.IsFeed → j ≠ c'.run.host) →
      p.Aside j (· = c) (Platform.launch c' info op p).1
        (Backend.opening c' (Platform.launch c' info op p).2) := fun j hj =>
    hp.spares.aside_launch (fun hop => (hj hop).symm) hc
  refine hp.of_aside (k := c'.run.host) (fun j hj => haside j fun _ => hj) ?_
  cases op with
  | infeed destinations token => exact hp.feedsOthers_launchInfeed hc destinations
  | outfeed sources token => exact hp.feedsOthers_launchOutfeed sources
  | _ => exact hp.feedsOthers_of_aside (haside _ nofun)

theorem Ignores.launchCustomCall (hp : p.Ignores c) (target config : String)
    (operands results : List Slice) :
    (p.launchCustomCall c' target config operands results).1.Ignores c := by
  cases hfind : handlerOf (p.contextOf c'.run.host) target with
  | error e =>
    rw [launchCustomCall_of_error hfind]
    exact hp
  | ok found =>
    rw [launchCustomCall_of_ok hfind]
    exact (hp.of_all_aside fun j =>
      hp.spares.aside_of_hosts (portOf_endCall ..) rfl rfl rfl rfl (List.forall_mem_nil _)).1

/-- A buffer that the host puts in can end only an operation that waits for it. -/
theorem Ignores.putIn (hp : p.Ignores c) (k : Nat) (bytes : Bytes) :
    (p.putIn k bytes).1.Ignores c ∧ ∀ e ∈ (p.putIn k bytes).2, Effect.Spares (· = c) e := by
  have haside : ∀ j, j ≠ k → p.Aside j (· = c) (p.putIn k bytes).1 [] := fun j hj =>
    (hp.spares.tends_putIn k bytes).1.aside hj.symm (List.forall_mem_nil _)
  suffices h : (p.putIn k bytes).1.FeedsOthers c k ∧
      ∀ e ∈ (p.putIn k bytes).2, Effect.Spares (· = c) e from ⟨(hp.of_aside haside h.1).1, h.2⟩
  cases hport : p.portOf k with
  | none =>
    have hnone : p.host? k = none := Option.map_eq_none_iff.1 hport
    rw [Platform.putIn, hnone]
    exact ⟨hp.feeds k, List.forall_mem_nil _⟩
  | some port =>
    have hfeeds := feeds_of_portOf hport
    have hport' : ∀ {q : Platform} {f : Feed FeedTaker} {port'}, q.portOf = p.portOf →
        (q.setInfeed k f).portOf k = some port' → port'.1.infeed = f := fun hq h => by
      rw [portOf_setInfeed, hq, hport] at h
      obtain rfl := Option.some.inj h
      rfl
    cases hw : port.1.infeed.waiters with
    | nil =>
      rw [putIn_of_nil hfeeds hw]
      refine ⟨fun port' h t ht => ?_, List.forall_mem_nil _⟩
      rw [hport' rfl h] at ht
      cases ht
    | cons t rest =>
      obtain ⟨g, hg, hne⟩ := hp.feeds k port hport t (by rw [hw]; exact List.mem_cons_self)
      obtain ⟨hlt, -⟩ := Array.getElem?_eq_some_iff.1 hg
      obtain ⟨write, hwrite⟩ := exists_writeFed g.call.run.host t.destination bytes
      rw [putIn_of_cons hfeeds hw, fill_setInfeed, fill_of_some hg]
      dsimp only
      rw [hwrite]
      refine ⟨fun port' h t' ht' => ?_, spares_gathered hne⟩
      rw [hport' (portOf_setArena ..) h] at ht'
      obtain ⟨g', hg', hne'⟩ := hp.feeds k port hport t' (by rw [hw]; exact List.mem_cons_of_mem _ ht')
      by_cases hi : t.intake = t'.intake
      · rw [← hi]
        exact ⟨g.ended t.part _, Array.getElem?_setIfInBounds_self_of_lt hlt, hne⟩
      · exact ⟨g', (Array.getElem?_setIfInBounds_ne hi).trans hg', hne'⟩

theorem Occasion.ignores {change : Platform → Platform × List (Effect Work)} (ho : Occasion change)
    (hp : p.Ignores c) : (change p).1.Ignores c ∧ ∀ e ∈ (change p).2, Effect.Spares (· = c) e := by
  by_cases hput : ∃ k bytes, change = fun p => p.putIn k bytes
  · obtain ⟨k, bytes, rfl⟩ := hput
    exact hp.putIn k bytes
  have hput' : ∀ k bytes, change ≠ fun p => p.putIn k bytes := fun k bytes heq => hput ⟨k, bytes, heq⟩
  by_cases htake : ∃ k, change = fun p => (p.takeOut k, [])
  · obtain ⟨k, rfl⟩ := htake
    exact hp.of_aside (fun j hj =>
      (hp.spares.tends_modifyHost k HostState.infeed_fetching).aside hj.symm nofun)
      (hp.feedsOthers_modifyHost HostState.infeed_fetching)
  · exact hp.of_all_aside fun j => ho.aside_of_ne hp.spares hput' fun heq => htake ⟨j, heq⟩

/-- Nothing has happened yet on the platform. -/
structure IsIdle (p : Platform) : Prop extends p.IsQuiet where
  deferred : p.deferred = #[]

theorem IsIdle.ignores (hp : p.IsIdle) (c : CallKey) : p.Ignores c := by
  have hnone : ∀ {k port} {t : FeedTaker}, p.portOf k = some port → t ∉ port.1.infeed.waiters := by
    rintro k port t hport ht
    obtain ⟨s, hs, rfl⟩ := Option.map_eq_some_iff.1 hport
    rw [hp.takers k s hs] at ht
    cases ht
  refine ⟨⟨?_, ?_, ?_, fun k port hport t ht => absurd ht (hnone hport)⟩,
    fun k port hport t ht => absurd ht (hnone hport)⟩
  · simp [hp.waiting]
  · simp [hp.gridRuns]
  · simp [hp.deferred]

end Platform

namespace Machine.Crew

variable {s t : Crew Primitive Platform Work} {ch : Choice Platform Work} {c : CallKey} {o : Outcome}
  {f : Platform → Platform × List (Effect Work)}

/-- A crew that comes of an idle platform, while nothing but occasions happens outside. -/
inductive Arises : Crew Primitive Platform Work → Prop
  | fresh {w : World Primitive Platform Work} (hw : w.IsFresh) (hidle : w.device.IsIdle) :
      Arises { world := w }
  | move {s t : Crew Primitive Platform Work} {ch : Choice Platform Work} (h : Arises s)
      (hm : Move Platform.backend ch s t) (hch : ch.IsOccasional) : Arises t

/-- The crew goes on, and outside nothing happens but an occasion. -/
def Goes (s t : Crew Primitive Platform Work) : Prop :=
  ∃ ch, Move Platform.backend ch s t ∧ ch.IsOccasional

theorem Arises.reachable (h : s.Arises) : Reachable Platform.backend s := by
  induction h with
  | fresh hw => exact .fresh hw
  | move _ hm _ ih => exact ih.move hm

theorem Arises.later (h : s.Arises) (hg : Relation.ReflTransGen Goes s t) : t.Arises := by
  induction hg with
  | refl => exact h
  | tail _ hg ih =>
    obtain ⟨ch, hm, hch⟩ := hg
    exact ih.move hm hch

/-- No work that is owed is about to end the call, and nothing in flight is. -/
structure Ignores (s : Crew Primitive Platform Work) (c : CallKey) : Prop where
  device : s.world.device.Ignores c
  owes : ∀ x, s.Owes x → x.Spares (· = c)

/-- Nothing that is done with the platform makes it know of a call that is not made now. -/
theorem Ignores.turn (hs : s.Ignores c) (hf : Turn Platform.backend s ch f) (hch : ch.IsOccasional)
    (hnot : ¬ s.Launches ch c) : (f s.world.device).1.Ignores c ∧
      ∀ e ∈ (f s.world.device).2, Effect.Spares (· = c) e := by
  cases hf with
  | idle => exact ⟨hs.device, nofun⟩
  | @launch i c' info op rest hi hop =>
    have hne : c' ≠ c := fun heq => hnot ⟨⟨i, rest, rfl, heq ▸ hi⟩, info, op, heq ▸ hop⟩
    obtain ⟨hdevice, heffects⟩ := hs.device.launch hne info op
    refine ⟨hdevice, fun e he => heffects e ?_⟩
    change e ∈ (Platform.launch c' info op s.world.device).2.toOption.getD [] at he
    cases hr : (Platform.launch c' info op s.world.device).2 with
    | error text =>
      rw [hr] at he
      cases he
    | ok effects =>
      rw [hr] at he
      exact he
  | perform hx => exact hs.device.of_all_aside fun j => hs.device.spares.aside_perform (hs.owes _ hx)
  | discard hx => exact hs.device.of_all_aside fun j => hs.device.spares.aside_discard (hs.owes _ hx)
  | outside => exact (hch _ rfl).ignores hs.device

theorem Ignores.move (hs : s.Ignores c) (hm : Move Platform.backend ch s t) (hch : ch.IsOccasional)
    (hnot : ¬ s.Launches ch c) : t.Ignores c := by
  obtain ⟨f, hf, hdevice, howes, -⟩ := hm.turn
  obtain ⟨hignores, heffects⟩ := hs.turn hf hch hnot
  refine ⟨hdevice ▸ hignores, fun x hx => ?_⟩
  rcases howes x hx with hold | ⟨e, he, hwork⟩
  · exact hs.owes x hold
  · exact (heffects e he).of_work? hwork

theorem Ignores.not_settle (hs : s.Ignores c) (hch : ch.IsOccasional) (hnot : ¬ s.Launches ch c) :
    ¬ ∃ f, Turn Platform.backend s ch f ∧ .settle c o ∈ (f s.world.device).2 := fun ⟨_, hf, he⟩ =>
  (hs.turn hf hch hnot).2 _ he rfl

/-! ### What the platform knows of -/

/-- The platform does not know of calls that have not been made, nor of those of operations that are
no leaves. -/
theorem Arises.ignores (h : s.Arises) (hc : ¬ (.launched c ∈ s.log ∧ s.IsLeaf c)) :
    s.Ignores c ∧ ∀ o, ¬ s.Demanded c o := by
  induction h with
  | fresh hw hidle =>
    refine ⟨⟨hidle.ignores c, fun x hx => ?_⟩, fun o ⟨items, hitems, _⟩ => by cases hitems⟩
    rcases hx with ⟨items, hitems, -⟩ | hx
    · cases hitems
    · obtain ⟨r, hr, hx⟩ := List.mem_flatMap.1 hx
      rw [hw.queued r (Array.mem_toList_iff.1 hr)] at hx
      cases hx
  | @move s t ch h hm hch ih =>
    obtain ⟨hignores, hdemanded⟩ := ih fun ⟨hlaunched, info, op, hop⟩ =>
      hc ⟨hm.launched hlaunched, info, op, hm.belongs hop⟩
    have hnot : ¬ s.Launches ch c := fun ⟨hface, info, op, hop⟩ =>
      hc ⟨hm.launched_of_faces hface hop, info, op, hm.belongs (h.reachable.sound.belongs hop)⟩
    exact ⟨hignores.move hm hch hnot, fun o h =>
      (hm.demanded h).elim (hdemanded o) (hignores.not_settle hch hnot)⟩

theorem Arises.faithful (h : s.Arises) : s.Faithful := fun items hitems c o hmem op hop => by
  by_contra hleaf
  have hc : ¬ (.launched c ∈ s.log ∧ s.IsLeaf c) := fun hc =>
    hleaf ((h.reachable.sound.isLeaf_iff hop).1 hc.2)
  exact (h.ignores hc).2 o ⟨items, hitems, hmem⟩

theorem Arises.reachableWhile (h : s.Arises) : ReachableWhile Faithful Platform.backend s := by
  induction h with
  | fresh hw => exact .fresh hw
  | move h hm _ ih => exact ih.move h.faithful hm

theorem Arises.quiet_of_not_launched (h : s.Arises) (hc : .launched c ∉ s.log) : s.Shows c .quiet := by
  obtain ⟨x, hx⟩ := h.reachableWhile.shows c
  have hnone : s.world.call? c = none :=
    Option.eq_none_iff_forall_ne_some.2 fun y hy => hc (h.reachable.sound.launched_of_call hy)
  have hfits := hx.fits
  rw [hnone] at hfits
  exact hfits.eq_quiet ▸ hx

/-- A call that has not been made does not end. -/
theorem Arises.not_ending (h : s.Arises) (hc : .launched c ∉ s.log) : ¬ s.Ending c o := by
  induction h with
  | fresh hw =>
    rintro (⟨items, hitems, -⟩ | ⟨l, hl⟩ | hended)
    · cases hitems
    · simp [World.call?, hw.execution?_eq_none] at hl
    · cases hended
  | @move s t ch h hm hch ih =>
    have hs := h.reachable.sound
    have hnew : .launched c ∉ s.log := fun h => hc (hm.launched h)
    have hquiet : s.Shows c .quiet := h.quiet_of_not_launched hnew
    have hcall : s.Faces ch (.call c) → ∀ op, s.world.operation? c ≠ some op := fun hface op hop =>
      hc (hm.launched_of_faces hface hop)
    have hnot : ¬ s.Launches ch c := by
      rintro ⟨hface, info, op, hop⟩
      exact hcall hface _ hop
    intro hending
    rcases hm.ending hs hquiet (fun hface op hop => absurd hop (hcall hface op)) hending with
      hending | hsettle | ⟨hl, -⟩
    · exact ih hnew hending
    · exact (h.ignores fun hl => hnew hl.1).1.not_settle hch hnot hsettle
    · exact hnot hl

/-! ### Operations that leave nothing behind -/

/-- A leaf operation that has been called and of which the platform knows nothing. A thread is to end
it, or it has ended, and it can end in one way only. -/
structure EndsOnly (s : Crew Primitive Platform Work) (c : CallKey) (o : Outcome) : Prop where
  launched : .launched c ∈ s.log
  leaf : s.IsLeaf c
  ignores : s.Ignores c
  only : ∀ o', s.Ending c o' → o' = o
  ending : s.Ending c o

theorem EndsOnly.move (h : s.EndsOnly c o) (hs : s.Arises) (hm : Move Platform.backend ch s t)
    (hch : ch.IsOccasional) : t.EndsOnly c o := by
  have hface : ¬ s.Faces ch (.call c) := fun ⟨i, rest, _, hi⟩ =>
    hs.reachable.sound.not_launched_of_call hi h.launched
  have hnot : ¬ s.Launches ch c := fun hl => hface hl.1
  obtain ⟨info, op, hop⟩ := h.leaf
  refine ⟨hm.launched h.launched, ⟨info, op, hm.belongs hop⟩, h.ignores.move hm hch hnot,
    fun o' ho' => ?_, hm.keeps_ending hs.reachable.sound h.launched h.only h.ending⟩
  obtain ⟨x, hx⟩ := hs.reachableWhile.shows c
  have hquiet : s.Shows c .quiet := hx.leaf h.leaf ▸ hx
  rcases hm.ending hs.reachable.sound hquiet (fun hl => absurd hl hface) ho' with
    ho' | hsettle | ⟨hl, -⟩
  · exact h.only o' ho'
  · exact absurd hsettle (h.ignores.not_settle hch hnot)
  · exact absurd hl hnot

theorem EndsOnly.later (h : s.EndsOnly c o) (hs : s.Arises) (hg : Relation.ReflTransGen Goes s t) :
    t.EndsOnly c o := by
  induction hg with
  | refl => exact h
  | tail hg hlast ih =>
    obtain ⟨ch, hm, hch⟩ := hlast
    exact ih.move (hs.later hg) hm hch

theorem belongs_later (hg : Relation.ReflTransGen Goes s t) {op : Operation Primitive}
    (hop : s.Belongs c op) : t.Belongs c op := by
  induction hg with
  | refl => exact hop
  | tail _ hlast ih =>
    obtain ⟨ch, hm, -⟩ := hlast
    exact hm.belongs ih

theorem goes_act (s : Crew Primitive Platform Work) (i : Nat) :
    Relation.ReflTransGen Goes s (s.act Platform.backend i) := by
  rcases act_cases Platform.backend s i with heq | hm
  · rw [heq]
  · exact .single ⟨.act i, hm, nofun⟩

theorem goes_acts (s : Crew Primitive Platform Work) (i n : Nat) :
    Relation.ReflTransGen Goes s ((act Platform.backend i)^[n] s) := by
  induction n with
  | zero => exact .refl
  | succ n ih =>
    rw [Function.iterate_succ_apply']
    exact ih.trans (goes_act _ i)

/-- A call that thread `i` has just made ends so with the next two items of the thread. Whatever
happens instead, it has ended so when no thread has anything to do, and it ends in no other way. -/
structure EndsSo (s : Crew Primitive Platform Work) (i : Nat) (c : CallKey) (o : Outcome) : Prop where
  next : .ended c o ∈ ((act Platform.backend i)^[2] s).log
  rest : ∀ t, Relation.ReflTransGen Goes s t → (∀ items ∈ t.threads, items = []) → .ended c o ∈ t.log
  only : ∀ t o', Relation.ReflTransGen Goes s t → .ended c o' ∈ t.log → o' = o

section Start

variable {i : Nat} {rest : List (Item Primitive Work)} {info : OpInfo} {op : Primitive}

theorem mem_threads_act (hi : s.threads[i]? = some (.call c :: rest))
    (hop : s.world.operation? c = some (.leaf info op))
    (hends : EndsAtOnce c (Platform.backend.launch c info op s.world.device).2 o)
    {items : List (Item Primitive Work)} (h : items ∈ (s.act Platform.backend i).threads) :
    items ∈ s.threads ∨ ∃ x : Item Primitive Work, x.Settles c o ∧ items = x :: .returned c :: rest := by
  obtain ⟨x, hx, hthread, -⟩ := act_call hi hop hends
  obtain ⟨k, hk⟩ := List.mem_iff_getElem?.1 h
  by_cases hki : k = i
  · exact .inr ⟨x, hx, Option.some.inj (hk.symm.trans (hki ▸ hthread))⟩
  · obtain ⟨w, hw⟩ : ∃ w, (s.seenBy (.call c :: rest)).step? Platform.backend = some w := ⟨_, rfl⟩
    rw [act_eq hi hw] at hk
    simp only [after, List.getElem?_set_ne (Ne.symm hki)] at hk
    exact .inl (List.mem_of_getElem? hk)

/-- An operation that its start lets end, and of which the platform then knows nothing, ends only as
its start says. -/
theorem Arises.endsOnly (h : s.Arises) (hi : s.threads[i]? = some (.call c :: rest))
    (hop : s.world.operation? c = some (.leaf info op))
    (hends : EndsAtOnce c (Platform.backend.launch c info op s.world.device).2 o)
    (hignores : s.world.device.Ignores c →
      (Platform.backend.launch c info op s.world.device).1.Ignores c) :
    (s.act Platform.backend i).EndsOnly c o := by
  have hs := h.reachable.sound
  have hnew := hs.not_launched_of_call hi
  have hold := (h.ignores fun hl => hnew hl.1).1
  have hnone : ∀ {o'}, ¬ s.Ending c o' := h.not_ending hnew
  obtain ⟨w, hw⟩ : ∃ w, (s.seenBy (.call c :: rest)).step? Platform.backend = some w := ⟨_, rfl⟩
  have hact : s.act Platform.backend i = s.after i (.call c) w := act_eq hi hw
  have hm : Move Platform.backend (.act i) s (s.act Platform.backend i) := hact ▸ .act hi hw
  refine ⟨hm.launched_of_faces ⟨i, rest, rfl, hi⟩ hop, ⟨info, op, hm.belongs (hs.belongs hop)⟩,
    ⟨?_, fun y hy => ?_⟩, ?_, ?_⟩
  · have hdevice := device_after i hw
    simp only [World.deviceAfter, hop] at hdevice
    rw [hact, hdevice]
    exact hignores hold.device
  · rw [hact] at hy
    rcases owes_after hi hw hy with howed | ⟨e, he, hwork⟩
    · exact hold.owes y howed
    · simp only [World.effectsAfter, hop] at he
      obtain rfl := hends.eq_settle he
      cases hwork
  · rintro o' (⟨items, hitems, y, hmem, hy⟩ | hsettled)
    · rcases mem_threads_act hi hop hends hitems with hitems | ⟨x, hx, rfl⟩
      · exact absurd (.inl ⟨items, hitems, y, hmem, hy⟩) hnone
      · rcases List.mem_cons.1 hmem with rfl | hmem
        · rcases hx with rfl | rfl <;> rcases hy with hy | hy <;> cases hy <;> rfl
        · rcases List.mem_cons.1 hmem with rfl | hmem
          · rcases hy with hy | hy <;> cases hy
          · exact absurd (.inl ⟨_, mem_threads hi, y, List.mem_cons_of_mem _ hmem, hy⟩) hnone
    · exact absurd (hm.ending_of_settledWith hs hsettled) hnone
  · obtain ⟨x, hx, hthread, -⟩ := act_call hi hop hends
    exact .inl ⟨_, List.mem_of_getElem? hthread, x, List.mem_cons_self, hx⟩

theorem Arises.endsSo (h : s.Arises) (hi : s.threads[i]? = some (.call c :: rest))
    (hop : s.world.operation? c = some (.leaf info op))
    (hends : EndsAtOnce c (Platform.backend.launch c info op s.world.device).2 o)
    (hignores : s.world.device.Ignores c →
      (Platform.backend.launch c info op s.world.device).1.Ignores c) :
    (s.act Platform.backend i).EndsSo i c o := by
  have hnow := h.endsOnly hi hop hends hignores
  have hnext : (s.act Platform.backend i).Arises := h.later (goes_act s i)
  refine ⟨ended_of_endsAtOnce hi hop hends, fun t hg hrest => ?_, fun t o' hg hended => ?_⟩
  · exact (hnow.later hnext hg).ending.ended (hnext.later hg).reachable.sound hrest
  · exact (hnow.later hnext hg).only o' (.inr (.inr hended))

end Start

end Machine.Crew

end OpFlow
