import OpFlow.Proofs.Feed.Program

/-!
What is in the feeds of a host while its program runs. The infeeds that have been launched are the
first ones of the program, the buffers that were put in went to their slots one by one, and either
buffers are left or slots that wait. The outfeeds have put out their sources in program order.
-/
namespace OpFlow

open Machine (CallKey Effect Scene)
open Platform (backend)

section Zip

variable {α β : Type}

theorem append_zip (a b : List α) (c : List β) :
    (a ++ b).zip c = a.zip c ++ b.zip (c.drop a.length) := by
  induction a generalizing c with
  | nil => rfl
  | cons x a ih =>
    cases c with
    | nil => simp
    | cons y c => simp [ih]

theorem zip_append_drop (a : List α) (b c : List β) :
    a.zip (b ++ c) = a.zip b ++ (a.drop b.length).zip c := by
  induction b generalizing a with
  | nil => simp
  | cons y b ih =>
    cases a with
    | nil => simp
    | cons x a => simp [ih]

theorem map_fst_zip_eq_take (a : List α) (b : List β) :
    (a.zip b).map Prod.fst = a.take b.length := by
  induction a generalizing b with
  | nil => simp
  | cons x a ih =>
    cases b with
    | nil => rfl
    | cons y b => simp [ih]

end Zip

namespace Platform

variable {p p' : Platform} {h : Nat} {f : Feed FeedTaker}

def outfeedOf (p : Platform) (h : Nat) : Option (Feed Nat × Array (Option Bytes)) :=
  (p.portOf h).map fun port => (port.1.outfeed, port.2)

theorem infeedOf_of_port (hport : p'.portOf h = p.portOf h) : p'.infeedOf h = p.infeedOf h := by
  rw [infeedOf, infeedOf, hport]

theorem outfeedOf_of_port (hport : p'.portOf h = p.portOf h) : p'.outfeedOf h = p.outfeedOf h := by
  rw [outfeedOf, outfeedOf, hport]

theorem feeds_of_infeedOf (hf : p.infeedOf h = some f) :
    ∃ feeds, (p.host? h).map HostState.feeds = some feeds ∧ feeds.infeed = f := by
  obtain ⟨port, hport, rfl⟩ := Option.map_eq_some_iff.1 hf
  exact ⟨port.1, feeds_of_portOf hport, rfl⟩

theorem infeedOf_setInfeed (f' : Feed FeedTaker) (hf : p.infeedOf h = some f) :
    (p.setInfeed h f').infeedOf h = some f' := by
  obtain ⟨port, hport, -⟩ := Option.map_eq_some_iff.1 hf
  rw [infeedOf, portOf_setInfeed, hport]
  rfl

theorem outfeedOf_setInfeed (f' : Feed FeedTaker) :
    (p.setInfeed h f').outfeedOf h = p.outfeedOf h := by
  rw [outfeedOf, portOf_setInfeed, outfeedOf]
  cases p.portOf h <;> rfl

theorem infeedOf_written (a : Arena) (f' : Feed FeedTaker) (intakes : Array Gathering)
    (hf : p.infeedOf h = some f) :
    ({ (p.setArena h a).setInfeed h f' with intakes } : Platform).infeedOf h = some f' :=
  infeedOf_setInfeed (p := p.setArena h a) f'
    ((infeedOf_of_port (congrFun (portOf_setArena p h a) h)).trans hf)

theorem outfeedOf_written (a : Arena) (f' : Feed FeedTaker) (intakes : Array Gathering) :
    ({ (p.setArena h a).setInfeed h f' with intakes } : Platform).outfeedOf h = p.outfeedOf h :=
  (outfeedOf_setInfeed (p := p.setArena h a) f').trans
    (outfeedOf_of_port (congrFun (portOf_setArena p h a) h))

def SentFrom (p : Platform) (h : Nat) (sent : List Bytes) : Prop :=
  ∃ s, p.host? h = some s ∧ s.Sent sent

theorem SentFrom.congr {sent : List Bytes} (hs : p.SentFrom h sent)
    (hout : p'.outfeedOf h = p.outfeedOf h) : p'.SentFrom h sent := by
  obtain ⟨s, hs, hsent⟩ := hs
  rw [outfeedOf, portOf, outfeedOf, portOf, hs] at hout
  cases hs' : p'.host? h with
  | none =>
    rw [hs'] at hout
    cases hout
  | some s' =>
    rw [hs'] at hout
    obtain ⟨hfeed, houtfed⟩ := Prod.mk.inj (Option.some.inj hout)
    dsimp only at hfeed houtfed
    exact ⟨s', hs', by rw [houtfed]; exact hsent.taken, by rw [hfeed, houtfed]; exact hsent.queued,
      by rw [hfeed, houtfed]; exact hsent.waiting⟩

theorem infeedOf_modifyHost {g : HostState → HostState}
    (hg : ∀ s, (g s).feeds.infeed = s.feeds.infeed) (p : Platform) (h : Nat) :
    (p.modifyHost h g).infeedOf h = p.infeedOf h := by
  rw [infeedOf, portOf, host?_modifyHost, if_pos rfl, infeedOf, portOf]
  cases p.host? h with
  | none => rfl
  | some s => exact congrArg some (hg s)

theorem SentFrom.modifyHost {g : HostState → HostState} {sent sent' : List Bytes}
    (hs : p.SentFrom h sent) (hg : ∀ s, s.Sent sent → (g s).Sent sent') :
    (p.modifyHost h g).SentFrom h sent' := by
  obtain ⟨s, hs, hsent⟩ := hs
  exact ⟨g s, by rw [host?_modifyHost, if_pos rfl, hs]; rfl, hg s hsent⟩

end Platform

theorem HostState.Sent.foldl_sending {s : HostState} {sent : List Bytes} (hs : s.Sent sent)
    (buffers : List Bytes) : (buffers.foldl HostState.sending s).Sent (sent ++ buffers) := by
  induction buffers generalizing s sent with
  | nil =>
    rw [List.append_nil]
    exact hs
  | cons bytes buffers ih =>
    rw [List.append_cons]
    exact ih (hs.sending bytes)

namespace FeedJob

variable {J : FeedJob}

def WellReceived (received : List Delivery) (i : Nat) : Prop :=
  ∀ d ∈ received, d.slot.op = i → d.outcome = .ok ()

def ofOp (xs : List Slot) (i : Nat) : List Slot := xs.filter fun x => x.op = i

/-- The parts of an operation of which these slots still wait. -/
structure Gathers (J : FeedJob) (i : Nat) (waiting : List Slot) (received : List Delivery)
    (g : Gathering) : Prop where
  call : g.call = J.key i
  lost : g.lost = 0
  remaining : g.remaining = (ofOp waiting i).length
  well : g.firstError = none → WellReceived received i

/-- The infeeds that have been launched are those before operation `n`, and the buffers that were put
in went to their slots in order. An operation is about to end when no slot of it waits. -/
structure Infed (J : FeedJob) (x : Scene Platform Work) (given : List Bytes)
    (received : List Delivery) (n : Nat) (intake : Nat → Nat) : Prop where
  launched : ∀ i destinations, J.destinations? i = some destinations →
    (J.key i ∈ x.launched ↔ i < n)
  feed : x.device.infeedOf J.host = some ⟨given.drop (J.slots n).length,
    ((J.slots n).drop given.length).map (Slot.taker intake)⟩
  took : received.map Delivery.pair = (J.slots n).zip given
  gathering : ∀ i < n, ∀ d ds, J.destinations? i = some (d :: ds) → ∃ g,
    x.device.intakes[intake i]? = some g ∧ J.Gathers i ((J.slots n).drop given.length) received g
  settling : ∀ i destinations o, J.destinations? i = some destinations → x.Settling (J.key i) o →
    J.key i ∈ x.launched ∧ ofOp ((J.slots n).drop given.length) i = [] ∧
      (o = .ok () → WellReceived received i)

/-- The outfeeds before operation `m` have put out their sources, and they end well; no other one has
put out anything, and none ends well. -/
structure Outfed (J : FeedJob) (x : Scene Platform Work) (sent : List (Nat × List Bytes))
    (m : Nat) : Prop where
  launched : ∀ i sources, J.sources? i = some sources → i < m → J.key i ∈ x.launched
  ops : sent.map Prod.fst = J.outfeeds m
  queue : x.device.SentFrom J.host (sent.flatMap Prod.snd)
  settling : ∀ i sources o, J.sources? i = some sources → x.Settling (J.key i) o →
    J.key i ∈ x.launched ∧ (o = .ok () ↔ i < m)

variable {x x' : Scene Platform Work} {given : List Bytes} {received : List Delivery}
  {sent : List (Nat × List Bytes)} {n m i : Nat} {intake : Nat → Nat}
  {destinations sources : List Slice} {token : Resource} {info : OpInfo}
  {d : Platform} {effects : List (Effect Work)}

theorem length_ofOp_append (xs ys : List Slot) (i : Nat) :
    (ofOp (xs ++ ys) i).length = (ofOp xs i).length + (ofOp ys i).length := by
  rw [ofOp, List.filter_append, List.length_append, ofOp, ofOp]

theorem ofOp_eq_nil {xs : List Slot} (h : ∀ x ∈ xs, x.op ≠ i) : ofOp xs i = [] :=
  List.filter_eq_nil_iff.2 fun x hx => by simpa using h x hx

theorem ofOp_eq_self {xs : List Slot} (h : ∀ x ∈ xs, x.op = i) : ofOp xs i = xs :=
  List.filter_eq_self.2 fun x hx => by simpa using h x hx

theorem wellReceived_append {more : List Delivery} (h : WellReceived received i)
    (hmore : ∀ d ∈ more, d.slot.op ≠ i) : WellReceived (received ++ more) i := fun d hd heq =>
  (List.mem_append.1 hd).elim (fun hd => h d hd heq) fun hd => absurd heq (hmore d hd)

theorem slot_of_mem_writeAll {h : Nat} {xs : List (Slot × Bytes)} {p : Platform} {d : Delivery}
    (hd : d ∈ (Platform.writeAll h xs p).2) : ∃ y ∈ xs, d.slot = y.1 := by
  have hmem : d.pair ∈ (Platform.writeAll h xs p).2.map Delivery.pair := List.mem_map_of_mem hd
  rw [Platform.map_pair_writeAll] at hmem
  exact ⟨_, hmem, rfl⟩

theorem slot_eq_of_mem_writeAll {h : Nat} {y : Slot} {bytes : Bytes} {p : Platform} {d : Delivery}
    (hd : d ∈ (Platform.writeAll h [(y, bytes)] p).2) : d.slot = y := by
  obtain ⟨z, hz, heq⟩ := slot_of_mem_writeAll hd
  exact heq.trans (congrArg Prod.fst (List.mem_singleton.1 hz))

namespace Gathers

variable {g : Gathering} {xs ys : List Slot} {new : List Delivery}

/-- Parts of the operation have got their buffers. -/
theorem ends (h : J.Gathers i xs received g) (hnew : ∀ d ∈ new, d.slot.op = i)
    (hxs : xs = new.map Delivery.slot ++ ys) :
    J.Gathers i ys (received ++ new) (g.endedAll (new.map Delivery.ending)) := by
  have hlen : (ofOp (new.map Delivery.slot) i).length = new.length := by
    rw [ofOp_eq_self fun x hx => ?_, List.length_map]
    obtain ⟨d, hd, rfl⟩ := List.mem_map.1 hx
    exact hnew d hd
  refine ⟨by rw [Gathering.call_endedAll]; exact h.call,
    by rw [Gathering.lost_endedAll]; exact h.lost, ?_, fun hnone d hd heq => ?_⟩
  · rw [Gathering.remaining_endedAll, h.remaining, hxs, length_ofOp_append, hlen, List.length_map,
      Nat.add_sub_cancel_left]
  · obtain ⟨hold, hends⟩ := (Gathering.firstError_endedAll g _).1 hnone
    rcases List.mem_append.1 hd with hd | hd
    · exact h.well hold d hd heq
    · exact hends _ (List.mem_map_of_mem hd)

theorem other (h : J.Gathers i xs received g) (hnew : ∀ d ∈ new, d.slot.op ≠ i)
    (hxs : xs = new.map Delivery.slot ++ ys) : J.Gathers i ys (received ++ new) g := by
  refine ⟨h.call, h.lost, ?_, fun hnone => wellReceived_append (h.well hnone) hnew⟩
  rw [h.remaining, hxs, length_ofOp_append, ofOp_eq_nil fun x hx => ?_, List.length_nil, Nat.zero_add]
  obtain ⟨d, hd, rfl⟩ := List.mem_map.1 hx
  exact hnew d hd

theorem settles (h : J.Gathers i xs received g) {c : CallKey} {o : Outcome}
    (hc : .settle c o ∈ Platform.gathered g) :
    c = J.key i ∧ ofOp xs i = [] ∧ (o = .ok () → WellReceived received i) := by
  obtain ⟨rfl, hremaining, hfirst⟩ := Gathering.mem_gathered hc h.lost
  exact ⟨h.call, List.eq_nil_of_length_eq_zero (h.remaining ▸ hremaining), fun ho =>
    h.well (hfirst ho)⟩

end Gathers

namespace Infed

/-- Nothing that has to do with the infeed changes. -/
theorem congr (h : J.Infed x given received n intake)
    (hfeed : x'.device.infeedOf J.host = x.device.infeedOf J.host)
    (hintakes : ∀ (i : Nat) g, x.device.intakes[i]? = some g → g.call.run.host = J.host →
      x'.device.intakes[i]? = some g)
    (hlaunched : ∀ i destinations, J.destinations? i = some destinations →
      (J.key i ∈ x'.launched ↔ J.key i ∈ x.launched))
    (hsettling : ∀ i destinations o, J.destinations? i = some destinations →
      x'.Settling (J.key i) o → x.Settling (J.key i) o) :
    J.Infed x' given received n intake := by
  refine ⟨fun i ds hi => (hlaunched i ds hi).trans (h.launched i ds hi), hfeed.trans h.feed,
    h.took, fun i hi d ds hd => ?_, fun i ds o hi ho => ?_⟩
  · obtain ⟨g, hg, hgathers⟩ := h.gathering i hi d ds hd
    exact ⟨g, hintakes _ g hg (by rw [hgathers.call]; rfl), hgathers⟩
  · obtain ⟨hl, hrest⟩ := h.settling i ds o hi (hsettling i ds o hi ho)
    exact ⟨(hlaunched i ds hi).2 hl, hrest⟩

theorem slot_mem (h : J.Infed x given received n intake) {d : Delivery} (hd : d ∈ received) :
    d.slot ∈ J.slots n := by
  have hmem : d.pair ∈ (J.slots n).zip given := h.took ▸ List.mem_map_of_mem hd
  exact (List.of_mem_zip hmem).1

theorem taker_eq {intake' : Nat → Nat} (hsame : ∀ j < n, intake' j = intake j) {xs : List Slot}
    (hxs : xs ⊆ J.slots n) : xs.map (Slot.taker intake') = xs.map (Slot.taker intake) :=
  List.map_congr_left fun y hy => by rw [Slot.taker, Slot.taker, hsame _ (mem_slots (hxs hy)).1]

theorem next (h : J.Infed x given received n intake) (hJ : J.IsWellFormed)
    (ho : x.Orderly J.plan) (hi : J.destinations? i = some destinations) {op : Primitive}
    (hcalls : x.Calls backend J.plan (J.key i) info op x') :
    n ≤ i ∧ ∀ j < i, ∀ ds, J.destinations? j = some ds → j < n := by
  refine ⟨Nat.le_of_not_lt fun hlt => hcalls.new ((h.launched i _ hi).2 hlt), fun j hj ds hds => ?_⟩
  obtain ⟨region, hr, hop, hbefore⟩ := hcalls.planned
  obtain ⟨-, rfl, -⟩ := hJ.of_plan hr hop rfl
  exact (h.launched j ds hds).1 (ho.ended _ _ (hbefore j hj (hJ.conflicts_infeeds hds hi)))

theorem mem_launched_next (h : J.Infed x given received n intake) (hni : n ≤ i)
    (hbefore : ∀ j < i, ∀ ds, J.destinations? j = some ds → j < n)
    (hlaunched : x'.launched = insert (J.key i) x.launched) {j : Nat}
    (hj : J.destinations? j = some destinations) : J.key j ∈ x'.launched ↔ j < i + 1 := by
  rw [hlaunched, Set.mem_insert_iff, key_inj, h.launched j _ hj, Nat.lt_succ_iff_lt_or_eq]
  constructor
  · rintro (rfl | hj)
    · exact .inr rfl
    · exact .inl (Nat.lt_of_lt_of_le hj hni)
  · rintro (hlt | rfl)
    · exact .inr (hbefore j hlt _ hj)
    · exact .inl rfl

/-- The slots of the next infeed get the buffers that are left, and those that get none wait behind
the others. -/
theorem extend (h : J.Infed x given received n intake) {intake' : Nat → Nat} {new : List Delivery}
    (hi : J.destinations? i = some destinations) (hni : n ≤ i)
    (hbefore : ∀ j < i, ∀ ds, J.destinations? j = some ds → j < n)
    (hlaunched : x'.launched = insert (J.key i) x.launched)
    (hintake : ∀ j < n, intake' j = intake j)
    (hfeed : x'.device.infeedOf J.host = some
      ((⟨given.drop (J.slots n).length, ((J.slots n).drop given.length).map (Slot.taker intake)⟩ :
        Feed FeedTaker).asked intake' (slotsFrom i 0 destinations)))
    (hnew : new.map Delivery.pair =
      (slotsFrom i 0 destinations).zip (given.drop (J.slots n).length))
    (hkept : ∀ (k : Nat) g, x.device.intakes[k]? = some g → x'.device.intakes[k]? = some g)
    (hgathers : destinations ≠ [] → ∃ g, x'.device.intakes[intake' i]? = some g ∧
      J.Gathers i ((slotsFrom i 0 destinations).drop (given.length - (J.slots n).length)) new g)
    (hsettling : ∀ c o, x'.Settling c o → x.Settling c o ∨ c = J.key i ∧
      ofOp ((slotsFrom i 0 destinations).drop (given.length - (J.slots n).length)) i = [] ∧
        (o = .ok () → WellReceived new i)) :
    J.Infed x' given (received ++ new) (i + 1) intake' := by
  have hslots := slots_of_next hi hni hbefore
  have hwaiting : (J.slots (i + 1)).drop given.length = (J.slots n).drop given.length ++
      (slotsFrom i 0 destinations).drop (given.length - (J.slots n).length) := by
    rw [hslots, List.drop_append]
  -- what is new is of this operation, and nothing else is
  have hmine : ∀ y ∈ slotsFrom i 0 destinations, y.op = i := fun y hy => op_of_mem_slotsFrom hy
  have hother : ∀ y ∈ J.slots n, y.op ≠ i := fun y hy heq =>
    absurd (mem_slots hy).1 (Nat.not_lt.2 (heq ▸ hni))
  have hslot : ∀ d ∈ new, d.slot.op = i := fun d hd => by
    have hmem : d.pair ∈ new.map Delivery.pair := List.mem_map_of_mem hd
    rw [hnew] at hmem
    exact hmine _ (List.of_mem_zip hmem).1
  have hwell : ∀ {j}, j < n → WellReceived received j → WellReceived (received ++ new) j :=
    fun hj hw => wellReceived_append hw fun d hd heq =>
      absurd hj (Nat.not_lt.2 (heq ▸ hslot d hd ▸ hni))
  have hwell_self : WellReceived new i → WellReceived (received ++ new) i := fun hw d hd heq =>
    (List.mem_append.1 hd).elim (fun hd => absurd heq (hother _ (h.slot_mem hd))) fun hd =>
      hw d hd heq
  have hofOp : ∀ {j}, j < n → ofOp ((J.slots (i + 1)).drop given.length) j =
      ofOp ((J.slots n).drop given.length) j := fun hj => by
    rw [hwaiting, ofOp, List.filter_append]
    refine (congrArg _ (ofOp_eq_nil fun y hy heq => ?_)).trans (List.append_nil _)
    exact absurd hj (Nat.not_lt.2 (heq ▸ hmine y (List.mem_of_mem_drop hy) ▸ hni))
  have hofOp_self : ofOp ((J.slots (i + 1)).drop given.length) i =
      ofOp ((slotsFrom i 0 destinations).drop (given.length - (J.slots n).length)) i := by
    rw [hwaiting, ofOp, List.filter_append]
    exact (congrArg (· ++ _) (ofOp_eq_nil fun y hy => hother y (List.mem_of_mem_drop hy))).trans
      (List.nil_append _)
  have hiff : ∀ j ds, J.destinations? j = some ds → (J.key j ∈ x'.launched ↔ j < i + 1) :=
    fun j ds hds => h.mem_launched_next hni hbefore hlaunched hds
  refine ⟨hiff, ?_, ?_, fun j hj d ds hd => ?_, fun j ds o hj hs => ?_⟩
  · rw [hfeed, hwaiting, hslots, Feed.asked, List.map_append,
      taker_eq hintake (List.drop_subset _ _), List.length_append, List.drop_drop, List.length_drop]
  · rw [List.map_append, h.took, hnew, hslots, append_zip]
  · rcases Nat.lt_succ_iff_lt_or_eq.1 hj with hj | rfl
    · have hlt := hbefore j hj _ hd
      obtain ⟨g, hg, hcall, hlost, hremaining, hfirst⟩ := h.gathering j hlt d ds hd
      refine ⟨g, ?_, hcall, hlost, by rw [hofOp hlt]; exact hremaining, fun hnone =>
        hwell hlt (hfirst hnone)⟩
      rw [hintake j hlt]
      exact hkept _ g hg
    · obtain rfl := Option.some.inj (hi.symm.trans hd)
      obtain ⟨g, hg, hcall, hlost, hremaining, hfirst⟩ := hgathers (List.cons_ne_nil _ _)
      exact ⟨g, hg, hcall, hlost, by rw [hremaining, hofOp_self], fun hnone =>
        hwell_self (hfirst hnone)⟩
  · rcases hsettling _ o hs with hs | ⟨hkey, hnone, hfirst⟩
    · obtain ⟨hl, hnone, hfirst⟩ := h.settling j ds o hj hs
      have hlt := (h.launched j ds hj).1 hl
      refine ⟨hlaunched ▸ Set.mem_insert_of_mem _ hl, ?_, fun ho => hwell hlt (hfirst ho)⟩
      rw [hofOp hlt]
      exact hnone
    · obtain rfl := key_inj.1 hkey
      exact ⟨(hiff j ds hj).2 (Nat.lt_succ_self j), hofOp_self.trans hnone, fun ho =>
        hwell_self (hfirst ho)⟩

end Infed

end FeedJob

end OpFlow
