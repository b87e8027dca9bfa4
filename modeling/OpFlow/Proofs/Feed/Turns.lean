import OpFlow.Proofs.Feed.Passage

/-!
Each feed in its turn. What the feeds hold stays as it is told when an infeed is called, when the host
puts in a buffer or takes one, when an outfeed is called, and when something happens that leaves the
feeds alone; so it does in every step.
-/
namespace OpFlow

open Machine (Backend CallKey Effect Scene)
open Platform (backend)

namespace Platform

variable {p : Platform} {h : Nat} {f : Feed FeedTaker}

theorem launchInfeed_nil {c : CallKey} (hctx : (p.contextOf c.run.host).requireFeeds = .ok ()) :
    p.launchInfeed c [] = (p, .ok [.settle c (.ok ())]) := by
  rw [launchInfeed, hctx]
  rfl

/-- An infeed that is launched leaves the outfeed alone, and writes the buffers that are there. -/
theorem launchInfeed_written {c : CallKey} (hf : p.infeedOf c.run.host = some f)
    (hctx : (p.contextOf c.run.host).requireFeeds = .ok ()) (destinations : List Slice) :
    (p.launchInfeed c destinations).1.outfeedOf c.run.host = p.outfeedOf c.run.host ∧
    (p.launchInfeed c destinations).1.arenaOf c.run.host = (writeAll c.run.host
      ((slotsFrom c.node 0 destinations).zip f.buffers) p).1.arenaOf c.run.host := by
  by_cases hne : destinations = []
  · rw [hne, launchInfeed_nil hctx]
    exact ⟨rfl, rfl⟩
  · obtain ⟨feeds, hfeeds, rfl⟩ := feeds_of_infeedOf hf
    obtain ⟨a, ha⟩ := exists_writeAll c.run.host
      ((slotsFrom c.node 0 destinations).zip feeds.infeed.buffers) p
    rw [@launchInfeed_eq p c (fun _ => p.intakes.size) feeds hfeeds hctx rfl destinations hne]
    dsimp only
    rw [ha]
    exact ⟨outfeedOf_written .., arenaOf_setInfeed ..⟩

theorem launchOutfeed_spares (p : Platform) (c : CallKey) (sources : List Slice) :
    (p.launchOutfeed c sources).1.infeedOf c.run.host = p.infeedOf c.run.host ∧
      (p.launchOutfeed c sources).1.intakes = p.intakes := by
  unfold launchOutfeed
  dsimp only
  split
  · exact ⟨rfl, rfl⟩
  · rw [foldl_putOut]
    exact ⟨infeedOf_modifyHost (infeed_foldl_sending _) _ _, rfl⟩

end Platform

namespace FeedJob

variable {J : FeedJob} {x x' : Scene Platform Work} {given : List Bytes} {received : List Delivery}
  {sent : List (Nat × List Bytes)} {n m i : Nat} {intake : Nat → Nat}
  {destinations sources : List Slice} {token : Resource} {info : OpInfo}
  {d : Platform} {effects : List (Effect Work)}

theorem not_sources (hi : J.destinations? i = some destinations) : J.sources? i = none := by
  obtain ⟨token, hi⟩ := destinations?_eq_some.1 hi
  by_contra hne
  obtain ⟨sources, hs⟩ := Option.ne_none_iff_exists'.1 hne
  obtain ⟨token', hs⟩ := sources?_eq_some.1 hs
  cases hi.unique hs

theorem feedCall_of_destinations (hi : J.destinations? i = some destinations) :
    J.FeedCall (J.key i) := ⟨rfl, .inl (by rw [key, hi]; rfl)⟩

theorem feedCall_of_sources (hi : J.sources? i = some sources) : J.FeedCall (J.key i) :=
  ⟨rfl, .inr (by rw [key, hi]; rfl)⟩

/-! ### The infeed -/

namespace Infed

theorem aside (h : J.Infed x given received n intake)
    (hd : x.device.Aside J.host J.FeedCall d effects) (hg : x.Gives d effects x')
    (hl : ∀ i destinations, J.destinations? i = some destinations →
      (J.key i ∈ x'.launched ↔ J.key i ∈ x.launched)) : J.Infed x' given received n intake :=
  h.congr (by rw [hg.device]; exact Platform.infeedOf_of_port hd.port)
    (by rw [hg.device]; exact hd.intakes) hl fun _ _ o hi ho =>
      (hg.settling _ o ho).resolve_right fun he => hd.effects _ he (feedCall_of_destinations hi)

/-- An infeed is called. The buffers that are there go to its first slots, and the others wait. -/
theorem launch (h : J.Infed x given received n intake) (hJ : J.IsWellFormed)
    (ho : x.Orderly J.plan) (hctx : (x.device.contextOf J.host).requireFeeds = .ok ())
    (hi : J.destinations? i = some destinations)
    (hcalls : x.Calls backend J.plan (J.key i) info (.infeed destinations token) x') :
    ∃ n' intake', J.Infed x' given
      (received ++ J.taken x.device (some (J.key i, info, .infeed destinations token))) n' intake' := by
  obtain ⟨hni, hbefore⟩ := h.next hJ ho hi hcalls
  have hgives := hcalls.gives
  change x.Gives (x.device.launchInfeed (J.key i) destinations).1
    (Backend.opening (J.key i) (x.device.launchInfeed (J.key i) destinations).2) x' at hgives
  have htaken : J.taken x.device (some (J.key i, info, .infeed destinations token)) =
      (Platform.writeAll J.host ((slotsFrom i 0 destinations).zip
        (given.drop (J.slots n).length)) x.device).2 := by
    simp only [taken, key, run, if_true]
    rw [h.feed]
    rfl
  rw [htaken]
  by_cases hne : destinations = []
  · subst hne
    rw [Platform.launchInfeed_nil (c := J.key i) hctx] at hgives
    refine ⟨i + 1, intake, h.extend hi hni hbefore hcalls.launched (fun _ _ => rfl) ?_ rfl
      (fun k g hg => by rw [hgives.device]; exact hg) (fun hne => absurd rfl hne) fun c o hs => ?_⟩
    · rw [hgives.device, h.feed]
      simp [Feed.asked, slotsFrom]
    · refine (hgives.settling c o hs).imp_right fun he => ?_
      cases List.mem_singleton.1 he
      exact ⟨rfl, by simp [ofOp, slotsFrom], fun _ _ hd => by cases hd⟩
  · obtain ⟨feeds, hfeeds, hinfeed⟩ := Platform.feeds_of_infeedOf h.feed
    let intake' : Nat → Nat := Function.update intake i x.device.intakes.size
    have hself : intake' i = x.device.intakes.size := Function.update_self ..
    have hsame : ∀ j < n, intake' j = intake j := fun j hj =>
      Function.update_of_ne (Nat.ne_of_lt (Nat.lt_of_lt_of_le hj hni)) ..
    set xs := slotsFrom i 0 destinations with hxs
    set buffers := given.drop (J.slots n).length with hbuffers
    set out := Platform.writeAll J.host (xs.zip buffers) x.device with hout
    set g := Gathering.endedAll { call := J.key i, remaining := destinations.length }
      (out.2.map Delivery.ending) with hg
    have hlaunch := @Platform.launchInfeed_eq x.device (J.key i) intake' feeds hfeeds hctx hself
      destinations hne
    rw [hinfeed] at hlaunch
    change x.device.launchInfeed (J.key i) destinations = ({ out.1.setInfeed J.host
      ((⟨buffers, ((J.slots n).drop given.length).map (Slot.taker intake)⟩ : Feed FeedTaker).asked
        intake' xs) with intakes := x.device.intakes.push g }, .ok (Platform.gathered g)) at hlaunch
    rw [hlaunch] at hgives
    obtain ⟨a, ha⟩ := Platform.exists_writeAll J.host (xs.zip buffers) x.device
    have hpair : out.2.map Delivery.pair = xs.zip buffers := Platform.map_pair_writeAll ..
    have hslot : ∀ d ∈ out.2, d.slot.op = i := fun d hd => by
      obtain ⟨y, hy, heq⟩ := slot_of_mem_writeAll hd
      rw [heq]
      exact op_of_mem_slotsFrom (List.of_mem_zip hy).1
    have hgathers : J.Gathers i (xs.drop (given.length - (J.slots n).length)) out.2 g := by
      have hnew : J.Gathers i xs [] { call := J.key i, remaining := destinations.length } :=
        ⟨rfl, rfl, by rw [ofOp_eq_self fun y hy => op_of_mem_slotsFrom hy, length_slotsFrom],
          fun _ _ hd => by cases hd⟩
      refine hnew.ends hslot ?_
      have hslots : out.2.map Delivery.slot = xs.take buffers.length := by
        rw [show out.2.map Delivery.slot = (out.2.map Delivery.pair).map Prod.fst by
          rw [List.map_map]; rfl, hpair, map_fst_zip_eq_take]
      rw [hslots, ← List.length_drop, List.take_append_drop]
    refine ⟨i + 1, intake', h.extend hi hni hbefore hcalls.launched hsame ?_ hpair
      (fun k g hk => ?_) (fun _ => ⟨g, ?_, hgathers⟩) fun c o hs => ?_⟩
    · rw [hgives.device, ha]
      exact Platform.infeedOf_written _ _ _ h.feed
    · rw [hgives.device]
      exact getElem?_push_of_some hk
    · rw [hgives.device, hself]
      exact Array.getElem?_push_size
    · exact (hgives.settling c o hs).imp_right hgathers.settles

/-- What becomes of a buffer that the host puts in: it is kept if no slot waits for it, and it goes to
the slot that has waited longest otherwise. -/
theorem putIn_cases (h : J.Infed x given received n intake) (bytes : Bytes) :
    ((J.slots n).drop given.length = [] ∧ J.handed x.device bytes = [] ∧
      x.device.putIn J.host bytes =
        (x.device.setInfeed J.host ⟨given.drop (J.slots n).length ++ [bytes], []⟩, [])) ∨
    ∃ y ys g, (J.slots n).drop given.length = y :: ys ∧
      x.device.intakes[intake y.op]? = some g ∧ J.Gathers y.op (y :: ys) received g ∧
      let out := Platform.writeAll J.host [(y, bytes)] x.device
      let g' := g.endedAll (out.2.map Delivery.ending)
      J.handed x.device bytes = out.2 ∧ x.device.putIn J.host bytes =
        ({ out.1.setInfeed J.host ⟨[], ys.map (Slot.taker intake)⟩ with
          intakes := x.device.intakes.setIfInBounds (intake y.op) g' }, Platform.gathered g') := by
  obtain ⟨feeds, hfeeds, hinfeed⟩ := Platform.feeds_of_infeedOf h.feed
  cases hdrop : (J.slots n).drop given.length with
  | nil =>
    have hw : feeds.infeed.waiters = [] := by
      rw [hinfeed, hdrop]
      rfl
    refine .inl ⟨rfl, ?_, ?_⟩
    · rw [handed, h.feed, hdrop]
      rfl
    · rw [Platform.putIn_of_nil hfeeds hw, hinfeed]
  | cons y ys =>
    have hy : y ∈ J.slots n := List.drop_subset given.length _ (by rw [hdrop]; exact List.mem_cons_self)
    obtain ⟨hlt, dest, dests, hd⟩ := mem_slots hy
    obtain ⟨g, hg, hgathers⟩ := h.gathering _ hlt _ _ hd
    rw [hdrop] at hgathers
    have hw : feeds.infeed.waiters = y.taker intake :: ys.map (Slot.taker intake) := by
      rw [hinfeed, hdrop]
      rfl
    have hpos : 0 < g.remaining := by
      rw [hgathers.remaining]
      exact List.length_pos_of_mem (List.mem_filter.2 ⟨List.mem_cons_self, by simp⟩)
    have hbuffers : feeds.infeed.buffers = [] := by
      rw [hinfeed]
      have hlen : 0 < ((J.slots n).drop given.length).length := by simp [hdrop]
      rw [List.length_drop] at hlen
      exact List.drop_eq_nil_of_le (by omega)
    have hslot : x.device.slotOf (y.taker intake) = y := by
      rw [Platform.slotOf, show (y.taker intake).intake = intake y.op from rfl, hg]
      obtain ⟨op, part, destination⟩ := y
      rw [Option.elim_some, hgathers.call]
      rfl
    refine .inr ⟨y, ys, g, rfl, hg, hgathers, ?_, ?_⟩
    · rw [handed, h.feed, hdrop]
      change (Platform.writeAll J.host [(x.device.slotOf (y.taker intake), bytes)] x.device).2 = _
      rw [hslot]
    · rw [Platform.putIn_of_taker hfeeds hw hg hpos, hbuffers,
        show g.call.run.host = J.host by rw [hgathers.call]; rfl]

/-- A buffer that the host puts in leaves the outfeed alone, ends no call but of an infeed, and is
written to the slot that it goes to. -/
theorem putIn_written (h : J.Infed x given received n intake) (bytes : Bytes) :
    (x.device.putIn J.host bytes).1.outfeedOf J.host = x.device.outfeedOf J.host ∧
    (∀ c o, .settle c o ∈ (x.device.putIn J.host bytes).2 → ∃ i destinations,
      J.destinations? i = some destinations ∧ c = J.key i) ∧
    (x.device.putIn J.host bytes).1.arenaOf J.host = (Platform.writeAll J.host
      ((J.handed x.device bytes).map Delivery.pair) x.device).1.arenaOf J.host := by
  rcases h.putIn_cases bytes with ⟨-, hhanded, hput⟩ | ⟨y, ys, g, hdrop, -, hgathers, hhanded, hput⟩
  · rw [hput, hhanded]
    exact ⟨Platform.outfeedOf_setInfeed _, nofun, Platform.arenaOf_setInfeed ..⟩
  · obtain ⟨a, ha⟩ := Platform.exists_writeAll J.host [(y, bytes)] x.device
    have hy : y ∈ J.slots n := List.drop_subset given.length _ (by rw [hdrop]; exact List.mem_cons_self)
    obtain ⟨-, d, ds, hd⟩ := mem_slots hy
    have hslot : ∀ d ∈ (Platform.writeAll J.host [(y, bytes)] x.device).2, d.slot.op = y.op :=
      fun d hd => congrArg Slot.op (slot_eq_of_mem_writeAll hd)
    have hends : J.Gathers y.op ys _ _ := hgathers.ends hslot rfl
    rw [hput, hhanded, Platform.map_pair_writeAll]
    refine ⟨?_, fun c o hc => ⟨_, _, hd, (hends.settles hc).1⟩, ?_⟩
    · dsimp only
      rw [ha]
      exact Platform.outfeedOf_written ..
    · exact Platform.arenaOf_setInfeed ..

theorem drop_given (bytes : Bytes) : (J.slots n).drop (given ++ [bytes]).length =
    ((J.slots n).drop given.length).drop 1 := by
  rw [List.drop_drop, List.length_append, List.length_singleton]

/-- The host puts in a buffer for which no slot waits. -/
theorem put_kept (h : J.Infed x given received n intake) {bytes : Bytes}
    (hnone : (J.slots n).drop given.length = [])
    (hg : x.Gives (x.device.setInfeed J.host ⟨given.drop (J.slots n).length ++ [bytes], []⟩) [] x')
    (hl : x'.launched = x.launched) : J.Infed x' (given ++ [bytes]) received n intake := by
  have hnext : (J.slots n).drop (given ++ [bytes]).length = [] := by
    rw [drop_given, hnone, List.drop_nil]
  have hle : (J.slots n).length ≤ given.length := List.drop_eq_nil_iff.1 hnone
  refine ⟨fun i ds hi => hl ▸ h.launched i ds hi, ?_, ?_, fun i hi d ds hd => ?_,
    fun i ds o hi ho => ?_⟩
  · rw [hg.device, hnext, List.drop_append_of_le_length hle]
    exact Platform.infeedOf_setInfeed _ h.feed
  · rw [h.took, zip_append_drop, hnone, List.zip_nil_left, List.append_nil]
  · obtain ⟨g, hgi, hgathers⟩ := h.gathering i hi d ds hd
    refine ⟨g, by rw [hg.device]; exact hgi, ?_⟩
    rw [hnone] at hgathers
    rw [hnext]
    exact hgathers
  · obtain ⟨hl', hrest⟩ := h.settling i ds o hi ((hg.settling _ o ho).resolve_right nofun)
    rw [hnone] at hrest
    rw [hnext]
    exact ⟨hl ▸ hl', hrest⟩

/-- The host puts in a buffer for the slot that has waited longest. -/
theorem put_taken (h : J.Infed x given received n intake) {bytes : Bytes} {y : Slot}
    {ys : List Slot} {g : Gathering} {out : Platform × List Delivery}
    (hdrop : (J.slots n).drop given.length = y :: ys)
    (hgy : x.device.intakes[intake y.op]? = some g) (hgathers : J.Gathers y.op (y :: ys) received g)
    (hout : Platform.writeAll J.host [(y, bytes)] x.device = out)
    (hg : x.Gives
      { out.1.setInfeed J.host ⟨[], ys.map (Slot.taker intake)⟩ with
        intakes := x.device.intakes.setIfInBounds (intake y.op)
          (g.endedAll (out.2.map Delivery.ending)) }
      (Platform.gathered (g.endedAll (out.2.map Delivery.ending))) x')
    (hl : x'.launched = x.launched) :
    J.Infed x' (given ++ [bytes]) (received ++ out.2) n intake := by
  have hnext : (J.slots n).drop (given ++ [bytes]).length = ys := by
    rw [drop_given, hdrop, List.drop_one, List.tail_cons]
  have hnew : ∀ d ∈ out.2, d.slot = y := fun d hd => slot_eq_of_mem_writeAll (hout ▸ hd)
  have hpair : out.2.map Delivery.pair = [(y, bytes)] := by
    rw [← hout, Platform.map_pair_writeAll]
  have hys : y :: ys = out.2.map Delivery.slot ++ ys := by
    rw [show out.2.map Delivery.slot = (out.2.map Delivery.pair).map Prod.fst by
      rw [List.map_map]; rfl, hpair]
    rfl
  have hmore : given.length < (J.slots n).length := by
    have hlen : 0 < ((J.slots n).drop given.length).length := by simp [hdrop]
    rw [List.length_drop] at hlen
    omega
  obtain ⟨hy, -⟩ := mem_slots (List.drop_subset given.length _ (hdrop ▸ List.mem_cons_self) :
    y ∈ J.slots n)
  -- operations have intakes of their own
  have hapart : ∀ {j g'}, x.device.intakes[intake j]? = some g' → g'.call = J.key j → j ≠ y.op →
      intake y.op ≠ intake j := fun hj hcall hne heq => by
    rw [heq] at hgy
    obtain rfl := Option.some.inj (hgy.symm.trans hj)
    exact hne (key_inj.1 (hcall.symm.trans hgathers.call))
  have hlt : intake y.op < x.device.intakes.size := (Array.getElem?_eq_some_iff.1 hgy).1
  have hends := hgathers.ends (fun d hd => congrArg Slot.op (hnew d hd)) hys
  refine ⟨fun i ds hi => hl ▸ h.launched i ds hi, ?_, ?_, fun j hj d ds hd => ?_,
    fun j ds o hj ho => ?_⟩
  · obtain ⟨a, ha⟩ := Platform.exists_writeAll J.host [(y, bytes)] x.device
    rw [hout] at ha
    rw [hg.device, hnext, List.drop_eq_nil_of_le (by simp; omega), ha]
    exact Platform.infeedOf_written _ _ _ h.feed
  · rw [List.map_append, h.took, hpair, zip_append_drop, hdrop, List.zip_cons_cons,
      List.zip_nil_right]
  · obtain ⟨g', hgj, hgathers'⟩ := h.gathering j hj d ds hd
    rw [hdrop] at hgathers'
    rw [hg.device, hnext]
    by_cases heq : j = y.op
    · subst heq
      exact ⟨_, Array.getElem?_setIfInBounds_self_of_lt hlt, hends⟩
    · refine ⟨g', ?_, hgathers'.other (fun d hd hop => heq (hop ▸ (hnew d hd).symm ▸ rfl)) hys⟩
      exact (Array.getElem?_setIfInBounds_ne (hapart hgj hgathers'.call heq)).trans hgj
  · rw [hnext]
    rcases hg.settling _ o ho with ho | ho
    · obtain ⟨hl', hnone, hwell⟩ := h.settling j ds o hj ho
      rw [hdrop] at hnone
      have heq : y.op ≠ j := fun heq => by
        have hmem : y ∈ ofOp (y :: ys) j := List.mem_filter.2 ⟨List.mem_cons_self, by simpa using heq⟩
        rw [hnone] at hmem
        cases hmem
      refine ⟨hl ▸ hl', List.filter_eq_nil_iff.2 fun z hz =>
        List.filter_eq_nil_iff.1 hnone z (List.mem_cons_of_mem _ hz), fun hok => ?_⟩
      exact wellReceived_append (hwell hok) fun d hd hop => heq (hnew d hd ▸ hop)
    · obtain ⟨hkey, hrest⟩ := hends.settles ho
      obtain rfl := key_inj.1 hkey
      exact ⟨hl ▸ (h.launched _ _ hj).2 hy, hrest⟩

theorem put (h : J.Infed x given received n intake) {bytes : Bytes}
    (hg : x.Gives (x.device.putIn J.host bytes).1 (x.device.putIn J.host bytes).2 x')
    (hl : x'.launched = x.launched) :
    J.Infed x' (given ++ [bytes]) (received ++ J.handed x.device bytes) n intake := by
  rcases h.putIn_cases bytes with
    ⟨hnone, hhanded, hput⟩ | ⟨y, ys, g, hdrop, hgy, hgathers, hhanded, hput⟩
  · rw [hput] at hg
    rw [hhanded, List.append_nil]
    exact h.put_kept hnone hg hl
  · rw [hput] at hg
    rw [hhanded]
    exact h.put_taken hdrop hgy hgathers rfl hg hl

theorem of_outfeed (h : J.Infed x given received n intake) (hg : x.Gives d effects x')
    (hfeed : d.infeedOf J.host = x.device.infeedOf J.host) (hintakes : d.intakes = x.device.intakes)
    (hl : ∀ i destinations, J.destinations? i = some destinations →
      (J.key i ∈ x'.launched ↔ J.key i ∈ x.launched))
    (heffects : ∀ i destinations o, J.destinations? i = some destinations →
      .settle (J.key i) o ∉ effects) : J.Infed x' given received n intake :=
  h.congr (by rw [hg.device]; exact hfeed) (fun i g hi _ => by rw [hg.device, hintakes]; exact hi) hl
    fun i ds o hi ho => (hg.settling _ o ho).resolve_right (heffects i ds o hi)

end Infed

/-! ### The outfeed -/

namespace Outfed

theorem congr (h : J.Outfed x sent m)
    (hout : x'.device.outfeedOf J.host = x.device.outfeedOf J.host)
    (hlaunched : x.launched ⊆ x'.launched)
    (hsettling : ∀ i sources o, J.sources? i = some sources →
      x'.Settling (J.key i) o → x.Settling (J.key i) o) : J.Outfed x' sent m :=
  ⟨fun i ss hi hm => hlaunched (h.launched i ss hi hm), h.ops, h.queue.congr hout,
    fun i ss o hi ho => (h.settling i ss o hi (hsettling i ss o hi ho)).imp_left (@hlaunched _)⟩

theorem aside (h : J.Outfed x sent m) (hd : x.device.Aside J.host J.FeedCall d effects)
    (hg : x.Gives d effects x') (hl : x.launched ⊆ x'.launched) : J.Outfed x' sent m :=
  h.congr (by rw [hg.device]; exact Platform.outfeedOf_of_port hd.port) hl fun _ _ o hi ho =>
    (hg.settling _ o ho).resolve_right fun he => hd.effects _ he (feedCall_of_sources hi)

theorem take (h : J.Outfed x sent m) (hg : x.Gives (x.device.takeOut J.host) [] x')
    (hl : x'.launched = x.launched) : J.Outfed x' sent m :=
  ⟨fun i ss hi hm => hl ▸ h.launched i ss hi hm, h.ops,
    by rw [hg.device]; exact h.queue.modifyHost fun s hs => hs.fetching,
    fun i ss o hi ho => hl ▸ h.settling i ss o hi ((hg.settling _ o ho).resolve_right nofun)⟩

theorem next (h : J.Outfed x sent m) (hJ : J.IsWellFormed)
    (hi : J.sources? i = some sources) {op : Primitive}
    (hcalls : x.Calls backend J.plan (J.key i) info op x') :
    m ≤ i ∧ ∀ j < i, ∀ ss, J.sources? j = some ss → j < m := by
  refine ⟨Nat.le_of_not_lt fun hlt => hcalls.new (h.launched i _ hi hlt), fun j hj ss hss => ?_⟩
  obtain ⟨region, hr, hop, hbefore⟩ := hcalls.planned
  obtain ⟨-, rfl, -⟩ := hJ.of_plan hr hop rfl
  exact (h.settling j ss _ hss (Scene.settling_of_ended
    (hbefore j hj (hJ.conflicts_outfeeds hss hi)))).2.1 rfl

/-- An outfeed is called. It puts out all its sources if they can be read, and nothing otherwise. -/
theorem launch (h : J.Outfed x sent m) (hJ : J.IsWellFormed)
    (hctx : (x.device.contextOf J.host).requireFeeds = .ok ()) (hi : J.sources? i = some sources)
    (hcalls : x.Calls backend J.plan (J.key i) info (.outfeed sources token) x') :
    ∃ m', J.Outfed x'
      (sent ++ J.putOut x.device (some (J.key i, info, .outfeed sources token))) m' := by
  obtain ⟨hmi, hbefore⟩ := h.next hJ hi hcalls
  have hgives := hcalls.gives
  change x.Gives (x.device.launchOutfeed (J.key i) sources).1
    (Backend.opening (J.key i) (x.device.launchOutfeed (J.key i) sources).2) x' at hgives
  have hold : ∀ {j}, J.key j ∈ x.launched → J.key j ∈ x'.launched := fun hj => by
    rw [hcalls.launched]
    exact Set.mem_insert_of_mem _ hj
  have hself : J.key i ∈ x'.launched := by
    rw [hcalls.launched]
    exact Set.mem_insert ..
  cases hread : sources.mapM (x.device.arenaOf J.host).read with
  | error e =>
    rw [Platform.launchOutfeed_of_error (c := J.key i) hctx hread] at hgives
    rw [putOut_of_error hread]
    refine ⟨m, fun j ss hj hm => hold (h.launched j ss hj hm), ?_, ?_, fun j ss o hj hs => ?_⟩
    · rw [List.append_nil]
      exact h.ops
    · rw [hgives.device, List.append_nil]
      exact h.queue
    · rcases hgives.settling _ o hs with hs | hs
      · exact (h.settling j ss o hj hs).imp_left hold
      · obtain ⟨hkey, rfl⟩ := Effect.settle.inj (List.mem_singleton.1 hs)
        obtain rfl := key_inj.1 hkey
        exact ⟨hself, iff_of_false (by simp) (Nat.not_lt.2 hmi)⟩
  | ok buffers =>
    rw [Platform.launchOutfeed_of_ok (c := J.key i) hctx hread] at hgives
    rw [putOut_of_ok hread]
    have hiff : ∀ {j ss}, J.sources? j = some ss → j ≠ i → (j < m ↔ j < i + 1) := fun hj hne =>
      ⟨fun hm => by omega, fun hm => hbefore _ (by omega) _ hj⟩
    refine ⟨i + 1, fun j ss hj hm => ?_, ?_, ?_, fun j ss o hj hs => ?_⟩
    · by_cases hji : j = i
      · exact hji ▸ hself
      · exact hold (h.launched j ss hj ((hiff hj hji).2 hm))
    · rw [List.map_append, h.ops, outfeeds_of_next hi hmi hbefore]
      rfl
    · rw [hgives.device, List.flatMap_append]
      exact h.queue.modifyHost fun s hs => by
        simpa using hs.foldl_sending buffers
    · rcases hgives.settling _ o hs with hs | hs
      · obtain ⟨hl, hok⟩ := h.settling j ss o hj hs
        have hne : j ≠ i := fun heq => hcalls.new (heq ▸ hl)
        exact ⟨hold hl, hok.trans (hiff hj hne)⟩
      · obtain ⟨hkey, rfl⟩ := Effect.settle.inj (List.mem_singleton.1 hs)
        obtain rfl := key_inj.1 hkey
        exact ⟨hself, iff_of_true rfl (Nat.lt_succ_self _)⟩

end Outfed

end FeedJob

end OpFlow
