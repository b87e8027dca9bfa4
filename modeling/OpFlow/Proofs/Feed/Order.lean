import OpFlow.Proofs.Feed.Carrying

/-!
Feeds that share a token follow the order of the program. Whatever the runners do and whenever the host
puts in and takes out buffers, the slots of the infeeds get them in the order of the program, and the
outfeeds put out their sources in that order.
-/
namespace OpFlow

open Machine (CallKey Crew Scene)
open Platform (backend)

namespace FeedJob

variable {J : FeedJob} {s t : Crew Primitive Platform Work} {T U : Traffic}
  {ch : Crew.Choice Platform Work} {i : Nat} {c : CallKey} {info : OpInfo} {op : Primitive}
  {destinations : List Slice}

/-- What has gone through the feeds went in the order of the program. -/
structure KeepsOrder (J : FeedJob) (s : Crew Primitive Platform Work) (T : Traffic) : Prop where
  /-- The infeeds that have been launched are the first ones, and their slots, in the order of the
  program, have got the buffers in the order in which the host has put them in. -/
  received : ∃ n, (∀ i destinations, J.destinations? i = some destinations →
      (.launched (J.key i) ∈ s.log ↔ i < n)) ∧
    T.received.map Delivery.pair = (J.slots n).zip T.given
  /-- An infeed that has ended well has written a buffer to each destination. -/
  infed : ∀ i destinations, J.destinations? i = some destinations →
    .ended (J.key i) (.ok ()) ∈ s.log →
      slotsFrom i 0 destinations ⊆ T.received.map Delivery.slot ∧ WellReceived T.received i
  /-- The outfeeds that have put out their sources are the first ones, in their order. -/
  sent : ∃ m, T.sent.map Prod.fst = J.outfeeds m
  /-- That is all that the outfeed queue has got, and the host takes it in the same order. -/
  queue : s.world.device.SentFrom J.host (T.sent.flatMap Prod.snd)
  /-- An outfeed ends well if it has put out its sources, and has put out nothing otherwise. -/
  outfed : ∀ i sources o, J.sources? i = some sources → .ended (J.key i) o ∈ s.log →
    (o = .ok () ↔ i ∈ T.sent.map Prod.fst)
  /-- Once all operations have ended well, each destination in the order of the program has got the
  buffer of the same number, and all outfeeds have put out their sources. -/
  complete : (∀ i < J.program.ops.length, .ended (J.key i) (.ok ()) ∈ s.log) →
    (∀ (k : Nat) x, (J.slots J.program.ops.length)[k]? = some x → ∃ bytes,
      T.given[k]? = some bytes ∧ T.received[k]? = some ⟨x, bytes, .ok ()⟩) ∧
    T.received.length = (J.slots J.program.ops.length).length ∧
    T.sent.map Prod.fst = J.outfeeds J.program.ops.length

/-- What goes through the feeds in one step. -/
structure Conveys (J : FeedJob) (ch : Crew.Choice Platform Work)
    (s : Crew Primitive Platform Work) (T : Traffic) (t : Crew Primitive Platform Work)
    (U : Traffic) : Prop where
  /-- What is received is written to the destinations. -/
  received : ∃ new, U.received = T.received ++ new ∧ (new ≠ [] → ∃ p,
    Platform.writeAll J.host (new.map Delivery.pair) s.world.device = (p, new) ∧
      t.world.device.arenaOf J.host = p.arenaOf J.host)
  /-- An outfeed puts out what its sources hold, one after the other. -/
  sent : U.sent = T.sent ∨ ∃ i info sources token buffers,
    s.calling? ch = some (J.key i, info, .outfeed sources token) ∧
      U.sent = T.sent ++ [(i, buffers)] ∧
      List.Forall₂ (fun source bytes => (s.world.device.arenaOf J.host).read source = .ok bytes)
        sources buffers
  /-- An outfeed one of whose sources cannot be read puts out nothing. -/
  unreadable : ∀ i info sources token source e,
    s.calling? ch = some (J.key i, info, .outfeed sources token) → source ∈ sources →
      (s.world.device.arenaOf J.host).read source = .error e →
        U.sent = T.sent ∧ t.world.device.outfeedOf J.host = s.world.device.outfeedOf J.host

namespace Infed

variable {n : Nat} {intake : Nat → Nat} (h : J.Infed s.scene T.given T.received n intake)

include h

theorem map_slot : T.received.map Delivery.slot = (J.slots n).take T.given.length := by
  rw [← map_fst_zip_eq_take, ← h.took, List.map_map]
  rfl

theorem of_ended (hi : J.destinations? i = some destinations)
    (hend : .ended (J.key i) (.ok ()) ∈ s.log) :
    i < n ∧ ofOp ((J.slots n).drop T.given.length) i = [] ∧ WellReceived T.received i := by
  obtain ⟨hl, hnone, hwell⟩ := h.settling i _ _ hi (Scene.settling_of_ended hend)
  exact ⟨(h.launched i _ hi).1 hl, hnone, hwell rfl⟩

theorem slots_of_ended (hi : J.destinations? i = some destinations)
    (hend : .ended (J.key i) (.ok ()) ∈ s.log) :
    slotsFrom i 0 destinations ⊆ T.received.map Delivery.slot := fun y hy => by
  obtain ⟨hin, hnone, -⟩ := h.of_ended hi hend
  have hmem := mem_slots_of_mem hi hin hy
  rw [← List.take_append_drop T.given.length (J.slots n)] at hmem
  rw [h.map_slot]
  refine (List.mem_append.1 hmem).resolve_right fun hdrop => ?_
  have hmine : y ∈ ofOp ((J.slots n).drop T.given.length) i :=
    List.mem_filter.2 ⟨hdrop, by simpa using op_of_mem_slotsFrom hy⟩
  rw [hnone] at hmine
  cases hmine

/-- Once all infeeds have ended well, each slot has got the buffer of the same number. -/
theorem complete (hall : ∀ i destinations, J.destinations? i = some destinations →
      .ended (J.key i) (.ok ()) ∈ s.log) :
    (∀ (k : Nat) x, (J.slots J.program.ops.length)[k]? = some x → ∃ bytes,
      T.given[k]? = some bytes ∧ T.received[k]? = some ⟨x, bytes, .ok ()⟩) ∧
    T.received.length = (J.slots J.program.ops.length).length := by
  rw [← slots_eq_all fun i ds hi => (h.of_ended hi (hall i ds hi)).1]
  have hdrop : (J.slots n).drop T.given.length = [] := by
    refine List.eq_nil_iff_forall_not_mem.2 fun y hy => ?_
    obtain ⟨-, d, ds, hd⟩ := mem_slots (List.drop_subset _ _ hy)
    have hmine : y ∈ ofOp ((J.slots n).drop T.given.length) y.op := List.mem_filter.2 ⟨hy, by simp⟩
    rw [(h.of_ended hd (hall _ _ hd)).2.1] at hmine
    cases hmine
  have hle : (J.slots n).length ≤ T.given.length := List.drop_eq_nil_iff.1 hdrop
  refine ⟨fun k x hx => ?_, ?_⟩
  · have hk : k < T.given.length := (List.getElem?_eq_some_iff.1 hx).1.trans_le hle
    refine ⟨T.given[k], List.getElem?_eq_getElem hk, ?_⟩
    have hpair : (T.received.map Delivery.pair)[k]? = some (x, T.given[k]) := by
      rw [h.took]
      exact List.getElem?_zip_eq_some.2 ⟨hx, List.getElem?_eq_getElem hk⟩
    rw [List.getElem?_map, Option.map_eq_some_iff] at hpair
    obtain ⟨⟨slot, bytes, outcome⟩, hd, heq⟩ := hpair
    obtain ⟨rfl, rfl⟩ := Prod.mk.inj heq
    obtain ⟨-, d, ds, hds⟩ := mem_slots (List.mem_of_getElem? hx)
    obtain rfl : outcome = .ok () :=
      (h.of_ended hds (hall _ _ hds)).2.2 _ (List.mem_of_getElem? hd) rfl
    exact hd
  · rw [← List.length_map (f := Delivery.slot), h.map_slot, List.length_take, Nat.min_eq_right hle]

end Infed

namespace Carries

variable (hs : J.Carries s T)

include hs

theorem keepsOrder : J.KeepsOrder s T := by
  obtain ⟨n, intake, hinfed⟩ := hs.infed
  obtain ⟨m, houtfed⟩ := hs.outfed
  have hsent : ∀ i ss o, J.sources? i = some ss → .ended (J.key i) o ∈ s.log →
      (o = .ok () ↔ i < m) := fun i ss o hi ho =>
    (houtfed.settling i ss o hi (Scene.settling_of_ended ho)).2
  refine ⟨⟨n, hinfed.launched, hinfed.took⟩,
    fun i ds hi hend => ⟨hinfed.slots_of_ended hi hend, (hinfed.of_ended hi hend).2.2⟩,
    ⟨m, houtfed.ops⟩, houtfed.queue, fun i ss o hi ho => ?_, fun hall => ?_⟩
  · rw [houtfed.ops, mem_outfeeds, hsent i ss o hi ho, hi]
    simp
  · obtain ⟨hreceived, hlength⟩ := hinfed.complete fun i ds hi => hall i (lt_of_destinations? hi)
    refine ⟨hreceived, hlength, houtfed.ops.trans ?_⟩
    exact outfeeds_eq_all fun i ss hi => (hsent i ss _ hi (hall i (lt_of_sources? hi))).1 rfl

/-- What an infeed that is called receives is written to its destinations. -/
theorem received_call (hJ : J.IsWellFormed) (hcalls : s.scene.Calls backend J.plan c info op t.scene)
    (hne : J.taken s.world.device (some (c, info, op)) ≠ []) : ∃ p,
      Platform.writeAll J.host ((J.taken s.world.device (some (c, info, op))).map Delivery.pair)
        s.world.device = (p, J.taken s.world.device (some (c, info, op))) ∧
      t.world.device.arenaOf J.host = p.arenaOf J.host := by
  obtain ⟨n, intake, hinfed⟩ := hs.infed
  cases op with
  | infeed destinations token =>
    have hhost : c.run.host = J.host := by
      by_contra hother
      exact hne (if_neg hother)
    have htaken : J.taken s.world.device (some (c, info, .infeed destinations token)) =
        (Platform.writeAll J.host ((slotsFrom c.node 0 destinations).zip
          (T.given.drop (J.slots n).length)) s.world.device).2 := by
      rw [taken, if_pos hhost, show s.world.device.infeedOf J.host = _ from hinfed.feed]
      rfl
    have hfeed : s.world.device.infeedOf c.run.host = _ := hhost ▸ hinfed.feed
    have hctx : (s.world.device.contextOf c.run.host).requireFeeds = .ok () := hhost ▸ hs.context hJ
    have hwritten := (Platform.launchInfeed_written hfeed hctx destinations).2
    rw [hhost] at hwritten
    have hdevice : t.world.device = (s.world.device.launchInfeed c destinations).1 :=
      hcalls.gives.device
    rw [htaken, Platform.map_pair_writeAll]
    exact ⟨_, rfl, hdevice ▸ hwritten⟩
  | _ => exact absurd rfl hne

omit hs in
/-- What an outfeed that is called puts out is what its sources hold. -/
theorem sent_call (hJ : J.IsWellFormed) (hcalls : s.scene.Calls backend J.plan c info op t.scene)
    (hne : J.putOut s.world.device (some (c, info, op)) ≠ []) : ∃ i sources token buffers,
      c = J.key i ∧ op = .outfeed sources token ∧
      J.putOut s.world.device (some (c, info, op)) = [(i, buffers)] ∧
      List.Forall₂ (fun source bytes => (s.world.device.arenaOf J.host).read source = .ok bytes)
        sources buffers := by
  cases op with
  | outfeed sources token =>
    have hhost : c.run.host = J.host := by
      by_contra hother
      exact hne (if_neg hother)
    obtain ⟨region, hr, hnode, -⟩ := hcalls.planned
    obtain ⟨i, rfl⟩ : ∃ i, c = J.key i := ⟨_, (hJ.of_plan hr hnode hhost).1⟩
    cases hread : sources.mapM (s.world.device.arenaOf J.host).read with
    | error e => exact absurd (putOut_of_error hread) hne
    | ok buffers =>
      exact ⟨i, sources, token, buffers, rfl, rfl, putOut_of_ok hread, forall₂_of_mapM_read hread⟩
  | _ => exact absurd rfl hne

theorem conveys (hJ : J.IsWellFormed) (h : J.Step ch s T t U) : J.Conveys ch s T t U := by
  cases h with
  | own hm hch honce =>
    obtain ⟨hcall, -⟩ := hs.staged.scene_move hJ.isPlan (fun _ _ _ => IsWellFormed.plan_unique) hm hch
    refine ⟨⟨_, rfl, fun hne => ?_⟩, ?_, fun i info sources token source e hcalling hmem hread => ?_⟩
    · cases hcalling : s.calling? ch with
      | none => exact absurd (by rw [hcalling]; rfl) hne
      | some x =>
        rw [hcalling] at hne
        exact hs.received_call hJ (hcall _ _ _ hcalling) hne
    · by_cases hne : J.putOut s.world.device (s.calling? ch) = []
      · exact .inl (by rw [sent_called, hne, List.append_nil])
      · cases hcalling : s.calling? ch with
        | none => exact absurd (by rw [hcalling]; rfl) hne
        | some x =>
          obtain ⟨c, info, op⟩ := x
          rw [hcalling] at hne
          obtain ⟨i, sources, token, buffers, rfl, rfl, hput, hread⟩ :=
            sent_call hJ (hcall _ _ _ hcalling) hne
          exact .inr ⟨i, info, sources, token, buffers, rfl, by rw [sent_called, hput], hread⟩
    · obtain ⟨e', he'⟩ := exists_error_of_mapM_read hmem hread
      have hlaunch : s.world.device.launchOutfeed (J.key i) sources =
          (s.world.device, .ok [.settle (J.key i) (.error e')]) :=
        Platform.launchOutfeed_of_error (c := J.key i) (hs.context hJ) he'
      have hdevice : t.world.device = (s.world.device.launchOutfeed (J.key i) sources).1 :=
        (hcall _ _ _ hcalling).gives.device
      rw [hcalling, sent_called, putOut_of_error he', List.append_nil, hdevice, hlaunch]
      exact ⟨rfl, rfl⟩
  | put bytes hm =>
    obtain ⟨n, intake, hinfed⟩ := hs.infed
    obtain ⟨-, hg⟩ := Crew.scene_outside hm
    have hdevice : t.world.device = (s.world.device.putIn J.host bytes).1 := hg.device
    refine ⟨⟨_, rfl, fun hne => ?_⟩, .inl rfl, fun i info sources token source e hcalling => ?_⟩
    · rcases hinfed.putIn_cases bytes with ⟨-, hnone, -⟩ | ⟨y, ys, g, -, -, -, hhanded, -⟩
      · exact absurd hnone hne
      · have hwritten := (hinfed.putIn_written bytes).2.2
        have hpair : (J.handed s.world.device bytes).map Delivery.pair = [(y, bytes)] := by
          rw [show J.handed s.world.device bytes = _ from hhanded, Platform.map_pair_writeAll]
        refine ⟨_, Prod.ext rfl ?_, hdevice ▸ hwritten⟩
        rw [hpair]
        exact hhanded.symm
    · cases hcalling
  | outside hm ho hput =>
    exact ⟨⟨[], (List.append_nil _).symm, fun hne => absurd rfl hne⟩, .inl rfl,
      fun i info sources token source e hcalling => by cases hcalling⟩

end Carries

namespace Runs

theorem execute (h : J.Runs s T) {host : Machine.Host Primitive}
    (hk : s.world.hosts[J.host]? = some host) (hsize : host.executions.size = 0) :
    J.Runs (s.execute J.host) T := by
  have hmove : Crew.Move backend (.execute J.host) s (s.execute J.host) := by
    rw [Crew.execute, hk]
    exact .execute hk
  have hown : ∀ change, (.execute J.host : Crew.Choice Platform Work) ≠ .outside change := by simp
  have hstep := h.step (.own (T := T) hmove hown fun _ host' hk' => by
    rw [hk] at hk'
    exact Option.some.inj hk' ▸ hsize)
  rwa [Crew.calling?, called_none] at hstep

theorem act (h : J.Runs s T) (i : Nat) :
    ∃ U, J.Runs (s.act backend i) U ∧ U.given = T.given := by
  rcases Crew.act_cases backend s i with heq | hm
  · exact ⟨T, by rwa [heq], rfl⟩
  · exact ⟨_, h.step (.own hm nofun nofun), rfl⟩

theorem acts (h : J.Runs s T) (i n : Nat) :
    ∃ U, J.Runs ((Crew.act backend i)^[n] s) U ∧ U.given = T.given := by
  induction n generalizing s T with
  | zero => exact ⟨T, h, rfl⟩
  | succ n ih =>
    obtain ⟨U, hU, hgiven⟩ := h.act i
    obtain ⟨V, hV, hgiven'⟩ := ih hU
    exact ⟨V, hV, hgiven'.trans hgiven⟩

end Runs

/-- The feeds of a program whose infeeds share a token, and whose outfeeds do, follow its order,
however tasks are taken up and whenever the host puts in and takes out buffers. The slots of the
infeeds, in the order of the program, get the buffers in the order in which they are put in, and write
them to their destinations; each outfeed puts out what its sources hold, one after the other, or
nothing if one of them cannot be read, and the outfeeds do so in the order of the program. -/
theorem Runs.feeds_follow_program (hJ : J.IsWellFormed) (h : J.Runs s T) :
    J.KeepsOrder s T ∧ ∀ {ch t U}, J.Step ch s T t U → J.Conveys ch s T t U :=
  ⟨(h.carries hJ).keepsOrder, (h.carries hJ).conveys hJ⟩

def swapping : Program Primitive :=
  { ops := [.leaf { name := "in" } (.infeed [⟨0, 0, 1⟩, ⟨1, 0, 1⟩] ⟨.token, 0⟩),
      .leaf { name := "out" } (.outfeed [⟨1, 0, 1⟩, ⟨0, 0, 1⟩] ⟨.token, 0⟩)] }

/-- A host that executes that program. -/
def swapJob : FeedJob where
  world := {
    device := { hosts := #[{ arena := .ofSlots [[0], [0]], context := { feeds := true } }],
                transport := .ofTimeout 100 }
    hosts := #[{ program := swapping }] }
  host := 0
  program := swapping
  infeedToken := ⟨.token, 0⟩
  outfeedToken := ⟨.token, 0⟩

def handing (bytes : Bytes) (s : Crew Primitive Platform Work) : Crew Primitive Platform Work :=
  { s with world := { s.world with device := (s.world.device.putIn 0 bytes).1 } }.spawn
    ((s.world.device.putIn 0 bytes).2.map .effect)

def swapped : Crew Primitive Platform Work :=
  (Crew.act backend 2)^[20] (handing [8] ((Crew.act backend 1)^[20]
    ((handing [7] { world := swapJob.world }).execute 0)))

theorem isWellFormed_swapJob : swapJob.IsWellFormed where
  fresh := ⟨rfl, by simp [swapJob], by simp [swapJob]⟩
  program := rfl
  straight k program hk := by
    match k with
    | 0 =>
      obtain rfl : swapping = program := Option.some.inj hk
      simp [Machine.Region.IsStraight, swapping]
    | k + 1 => cases hk
  infeeds i ds token h := by
    obtain ⟨info, h⟩ := h
    match i with
    | 0 => cases h; rfl
    | 1 => cases h
    | i + 2 => cases h
  outfeeds i ss token h := by
    obtain ⟨info, h⟩ := h
    match i with
    | 0 => cases h
    | 1 => cases h; rfl
    | i + 2 => cases h
  feeds := ⟨_, rfl, rfl, rfl⟩
  context := rfl
  quiet := ⟨rfl, rfl, fun k s hk => by
    match k with
    | 0 =>
      obtain rfl := Option.some.inj hk
      rfl
    | k + 1 => cases hk⟩
  deferred := rfl

/-- The host gets the second buffer first, as the outfeed puts it out first. -/
theorem feeds_follow_program_swapped : ∃ T, swapJob.Runs swapped T ∧ T.given = [[7], [8]] ∧
    T.received = [⟨⟨0, 0, ⟨0, 0, 1⟩⟩, [7], .ok ()⟩, ⟨⟨0, 1, ⟨1, 0, 1⟩⟩, [8], .ok ()⟩] ∧
    T.sent.map Prod.fst = [1] ∧ T.sent.flatMap Prod.snd = [[8], [7]] := by
  have hstart : swapJob.Runs (handing [7] { world := swapJob.world })
      (swapJob.fed swapJob.world.device [7] {}) :=
    Runs.start.step (.put [7] (.outside _))
  obtain ⟨U, hU, hgivenU⟩ := (hstart.execute rfl rfl).acts 1 20
  have hput := hU.step (.put [8] (.outside _))
  obtain ⟨T, hT, hgiven⟩ := hput.acts 2 20
  have hlog : ∀ i < swapJob.program.ops.length, .ended (swapJob.key i) (.ok ()) ∈ swapped.log := by
    decide +kernel
  have hrun : swapJob.Runs swapped T := hT
  have hgiven' : T.given = [[7], [8]] := hgiven.trans (by rw [given_fed, hgivenU]; rfl)
  obtain ⟨hkeeps, -⟩ := hrun.feeds_follow_program isWellFormed_swapJob
  obtain ⟨hreceived, hlength, hsent⟩ := hkeeps.complete hlog
  refine ⟨T, hrun, hgiven', ?_, hsent, ?_⟩
  · obtain ⟨bytes, hbytes, hfirst⟩ := hreceived 0 _ rfl
    obtain ⟨bytes', hbytes', hsecond⟩ := hreceived 1 _ rfl
    rw [hgiven'] at hbytes hbytes'
    cases hbytes
    cases hbytes'
    refine List.ext_getElem? fun k => ?_
    match k with
    | 0 => exact hfirst
    | 1 => exact hsecond
    | k + 2 =>
      have htwo : T.received.length = 2 := hlength
      rw [List.getElem?_eq_none (by omega)]
      rfl
  · obtain ⟨state, hstate, -, hqueued, -⟩ := hkeeps.queue
    have hbuffers : (swapped.world.device.host? 0).map (fun s =>
        (s.feeds.outfeed.buffers, s.outfed.size)) = some ([[8], [7]], 0) := by decide +kernel
    rw [show swapped.world.device.host? 0 = _ from hstate] at hbuffers
    obtain ⟨hout, hsize⟩ := Prod.mk.inj (Option.some.inj hbuffers)
    rw [hout, hsize] at hqueued
    exact hqueued.symm

end FeedJob

end OpFlow
