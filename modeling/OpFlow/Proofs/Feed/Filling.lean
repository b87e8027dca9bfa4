import OpFlow.Proofs.Feed.Draining

/-!
What goes through the feeds of a host. An infeed that is launched asks for a buffer for each of its
destinations, and waits behind all who wait already; a buffer that the host puts in goes to the part
that has waited longest. An outfeed puts out all its sources or nothing.
-/
namespace OpFlow

open Machine (CallKey Effect)

theorem setIfInBounds_push_size {α : Type} (a : Array α) (x y : α) :
    (a.push x).setIfInBounds a.size y = a.push y := by
  apply Array.ext'
  simp [Array.toList_setIfInBounds]

/-- Where a buffer of an infeed goes: a part of an operation of the program. -/
structure Slot where
  op : Nat
  part : Nat
  destination : Slice
  deriving DecidableEq, Repr

structure Delivery where
  slot : Slot
  bytes : Bytes
  outcome : Outcome

namespace Delivery

def pair (d : Delivery) : Slot × Bytes := (d.slot, d.bytes)

def ending (d : Delivery) : Nat × Outcome := (d.slot.part, d.outcome)

end Delivery

def slotsFrom (op part : Nat) (destinations : List Slice) : List Slot :=
  (destinations.zipIdx part).map fun d => ⟨op, d.2, d.1⟩

def Slot.taker (intake : Nat → Nat) (x : Slot) : FeedTaker := ⟨intake x.op, x.part, x.destination⟩

def Feed.asked (f : Feed FeedTaker) (intake : Nat → Nat) (xs : List Slot) : Feed FeedTaker :=
  ⟨f.buffers.drop xs.length, f.waiters ++ (xs.drop f.buffers.length).map (Slot.taker intake)⟩

@[simp] theorem length_slotsFrom (op part : Nat) (destinations : List Slice) :
    (slotsFrom op part destinations).length = destinations.length := by
  simp [slotsFrom]

theorem slotsFrom_cons (op part : Nat) (destination : Slice) (rest : List Slice) :
    slotsFrom op part (destination :: rest) =
      ⟨op, part, destination⟩ :: slotsFrom op (part + 1) rest := by
  simp [slotsFrom, List.zipIdx_cons]

theorem op_of_mem_slotsFrom {op part : Nat} {destinations : List Slice} {x : Slot}
    (h : x ∈ slotsFrom op part destinations) : x.op = op := by
  obtain ⟨d, -, rfl⟩ := List.mem_map.1 h
  rfl

namespace Gathering

def endedAll (g : Gathering) (endings : List (Nat × Outcome)) : Gathering :=
  endings.foldl (fun g e => g.ended e.1 e.2) g

variable (g : Gathering) (endings : List (Nat × Outcome))

@[simp] theorem call_endedAll : (g.endedAll endings).call = g.call := by
  induction endings generalizing g with
  | nil => rfl
  | cons e endings ih => exact ih _

@[simp] theorem lost_endedAll : (g.endedAll endings).lost = g.lost := by
  induction endings generalizing g with
  | nil => rfl
  | cons e endings ih => exact ih _

theorem remaining_endedAll :
    (g.endedAll endings).remaining = g.remaining - endings.length := by
  induction endings generalizing g with
  | nil => rfl
  | cons e endings ih =>
    rw [endedAll, List.foldl_cons, ← endedAll, ih, List.length_cons]
    simp only [ended]
    omega

theorem firstError_ended {part : Nat} {o : Outcome} :
    (g.ended part o).firstError = none ↔ g.firstError = none ∧ o = .ok () := by
  rcases o with e | u
  · rcases h : g.firstError with _ | ⟨p, e'⟩
    · simp [ended, h]
    · simp only [ended, h]
      split <;> simp
  · simp [ended]

theorem firstError_endedAll :
    (g.endedAll endings).firstError = none ↔
      g.firstError = none ∧ ∀ e ∈ endings, e.2 = .ok () := by
  induction endings generalizing g with
  | nil => simp [endedAll]
  | cons e endings ih =>
    rw [endedAll, List.foldl_cons, ← endedAll, ih, firstError_ended, List.forall_mem_cons, and_assoc]

variable {g}

/-- What asks for the end of an operation none of whose parts has gone away: all have ended, and all
have ended well if it does. -/
theorem mem_gathered {c : CallKey} {o : Outcome} (h : .settle c o ∈ Platform.gathered g)
    (hlost : g.lost = 0) :
    c = g.call ∧ g.remaining = 0 ∧ (o = .ok () → g.firstError = none) := by
  unfold Platform.gathered outcome? at h
  by_cases hr : g.remaining = 0
  · rw [if_neg (not_not.2 hr), if_neg (not_not.2 hlost)] at h
    rcases hf : g.firstError with _ | ⟨part, e⟩
    · rw [hf] at h
      cases List.mem_singleton.1 h
      exact ⟨rfl, hr, fun _ => rfl⟩
    · rw [hf] at h
      cases List.mem_singleton.1 h
      exact ⟨rfl, hr, fun ho => by cases ho⟩
  · rw [if_pos hr] at h
    cases h

theorem gathered_eq_nil (h : g.remaining ≠ 0) : Platform.gathered g = [] := by
  rw [Platform.gathered, outcome?, if_pos h]

end Gathering

namespace Platform

variable {p : Platform} {h : Nat} {c : CallKey} {intake : Nat → Nat}

def setInfeed (p : Platform) (h : Nat) (f : Feed FeedTaker) : Platform :=
  p.modifyHost h fun s => { s with feeds := { s.feeds with infeed := f } }

/-- Buffers have come for several parts, one after the other. -/
def fillAll : List (FeedTaker × Bytes) → Platform → Platform × List (Effect Work)
  | [], p => (p, [])
  | x :: rest, p =>
    let first := p.fill x.1 x.2
    let more := fillAll rest first.1
    (more.1, first.2 ++ more.2)

/-- Buffers are written to slots of a host, one after the other. -/
def writeAll (h : Nat) : List (Slot × Bytes) → Platform → Platform × List Delivery
  | [], p => (p, [])
  | x :: rest, p =>
    let first := p.writeFed h x.1.destination x.2
    let more := writeAll h rest first.1
    (more.1, ⟨x.1, x.2, first.2⟩ :: more.2)

/-! ### Writing -/

theorem setArena_setArena (p : Platform) (h : Nat) (a b : Arena) :
    (p.setArena h a).setArena h b = p.setArena h b :=
  modifyHost_modifyHost p h _ _

theorem setArena_setInfeed (p : Platform) (h k : Nat) (a : Arena) (f : Feed FeedTaker) :
    (p.setInfeed k f).setArena h a = (p.setArena h a).setInfeed k f := by
  refine ext_hosts (p := (p.setInfeed k f).setArena h a) (q := (p.setArena h a).setInfeed k f)
    fun j => ?_
  rw [host?_setArena, setInfeed, setInfeed, host?_modifyHost, host?_modifyHost, host?_setArena]
  by_cases hh : h = j <;> by_cases hk : k = j <;> simp only [hh, hk, if_true, if_false]
  cases p.host? j <;> rfl

theorem arenaOf_setInfeed (p : Platform) (h k : Nat) (f : Feed FeedTaker) :
    (p.setInfeed k f).arenaOf h = p.arenaOf h := by
  rw [arenaOf, arenaOf, setInfeed, host?_modifyHost]
  split
  · cases p.host? h <;> rfl
  · rfl

theorem exists_writeFed (h : Nat) (destination : Slice) (bytes : Bytes) :
    ∃ write : Arena → Arena × Outcome, ∀ p : Platform, p.writeFed h destination bytes =
      (p.setArena h (write (p.arenaOf h)).1, (write (p.arenaOf h)).2) := by
  unfold writeFed
  split
  · exact ⟨fun a => (a, _), fun p => by rw [setArena_arenaOf]⟩
  · exact ⟨Arena.attempt _, fun p => p.onArena_eq h _⟩

theorem writeFed_setInfeed (p : Platform) (h k : Nat) (destination : Slice) (bytes : Bytes)
    (f : Feed FeedTaker) : (p.setInfeed k f).writeFed h destination bytes =
      ((p.writeFed h destination bytes).1.setInfeed k f, (p.writeFed h destination bytes).2) := by
  obtain ⟨write, hwrite⟩ := exists_writeFed h destination bytes
  rw [hwrite, hwrite, arenaOf_setInfeed, setArena_setInfeed]

theorem writeFed_setIntakes (p : Platform) (h : Nat) (destination : Slice) (bytes : Bytes)
    (intakes : Array Gathering) : ({ p with intakes } : Platform).writeFed h destination bytes =
      ({ (p.writeFed h destination bytes).1 with intakes },
        (p.writeFed h destination bytes).2) := by
  obtain ⟨write, hwrite⟩ := exists_writeFed h destination bytes
  rw [hwrite, hwrite]
  rfl

theorem writeAll_setInfeed (p : Platform) (h k : Nat) (xs : List (Slot × Bytes))
    (f : Feed FeedTaker) : writeAll h xs (p.setInfeed k f) =
      ((writeAll h xs p).1.setInfeed k f, (writeAll h xs p).2) := by
  induction xs generalizing p with
  | nil => rfl
  | cons x xs ih =>
    rw [writeAll, writeFed_setInfeed]
    dsimp only
    rw [ih]
    rfl

theorem writeAll_setIntakes (p : Platform) (h : Nat) (xs : List (Slot × Bytes))
    (intakes : Array Gathering) : writeAll h xs ({ p with intakes } : Platform) =
      ({ (writeAll h xs p).1 with intakes }, (writeAll h xs p).2) := by
  induction xs generalizing p with
  | nil => rfl
  | cons x xs ih =>
    rw [writeAll, writeFed_setIntakes]
    dsimp only
    rw [ih]
    rfl

theorem exists_writeAll (h : Nat) (xs : List (Slot × Bytes)) (p : Platform) :
    ∃ a, (writeAll h xs p).1 = p.setArena h a := by
  induction xs generalizing p with
  | nil => exact ⟨_, (setArena_arenaOf (p := p) (h := h)).symm⟩
  | cons x xs ih =>
    obtain ⟨write, hwrite⟩ := exists_writeFed h x.1.destination x.2
    obtain ⟨a, ha⟩ := ih (p.writeFed h x.1.destination x.2).1
    refine ⟨a, ?_⟩
    rw [writeAll]
    dsimp only
    rw [ha, hwrite, setArena_setArena]

theorem map_pair_writeAll (h : Nat) (xs : List (Slot × Bytes)) (p : Platform) :
    (writeAll h xs p).2.map Delivery.pair = xs := by
  induction xs generalizing p with
  | nil => rfl
  | cons x xs ih => exact congrArg (x :: ·) (ih _)

/-! ### The parts of an infeed -/

theorem fill_setInfeed (p : Platform) (k : Nat) (t : FeedTaker) (bytes : Bytes)
    (f : Feed FeedTaker) : (p.setInfeed k f).fill t bytes =
      ((p.fill t bytes).1.setInfeed k f, (p.fill t bytes).2) := by
  cases hg : p.intakes[t.intake]? with
  | none => rw [fill, fill, hg, show (p.setInfeed k f).intakes[t.intake]? = none from hg]
  | some g =>
    rw [fill_of_some hg, fill_of_some (p := p.setInfeed k f) hg]
    dsimp only
    rw [writeFed_setInfeed]
    rfl

theorem feeds_fill (p : Platform) (t : FeedTaker) (bytes : Bytes) (k : Nat) :
    ((p.fill t bytes).1.host? k).map HostState.feeds = (p.host? k).map HostState.feeds := by
  cases hg : p.intakes[t.intake]? with
  | none => rw [fill, hg]
  | some g =>
    obtain ⟨write, hwrite⟩ := exists_writeFed g.call.run.host t.destination bytes
    rw [fill_of_some hg]
    dsimp only
    rw [hwrite]
    change ((p.setArena _ _).host? k).map _ = _
    rw [host?_setArena]
    split
    · cases p.host? k <;> rfl
    · rfl

/-- Buffers come for parts of one operation that are all still to end. -/
theorem fillAll_eq {op : Nat} {g : Gathering} {xs : List (Slot × Bytes)}
    (hg : p.intakes[intake op]? = some g) (hop : ∀ x ∈ xs, x.1.op = op)
    (hlen : xs.length ≤ g.remaining) (hpos : 0 < g.remaining) :
    fillAll (xs.map fun x => (x.1.taker intake, x.2)) p =
      let out := writeAll g.call.run.host xs p
      let g' := g.endedAll (out.2.map Delivery.ending)
      ({ out.1 with intakes := p.intakes.setIfInBounds (intake op) g' }, gathered g') := by
  induction xs generalizing p g with
  | nil =>
    have hsame : p.intakes.setIfInBounds (intake op) g = p.intakes := by
      obtain ⟨hlt, rfl⟩ := Array.getElem?_eq_some_iff.1 hg
      simp [Array.setIfInBounds, hlt]
    simp only [List.map_nil, fillAll, writeAll, Gathering.endedAll, List.foldl_nil, hsame]
    rw [Gathering.gathered_eq_nil hpos.ne']
  | cons x xs ih =>
    have hx : (x.1.taker intake).intake = intake op := congrArg intake (hop x List.mem_cons_self)
    obtain ⟨hlt, -⟩ := Array.getElem?_eq_some_iff.1 hg
    rcases hw : p.writeFed g.call.run.host x.1.destination x.2 with ⟨q, o⟩
    have hfill : p.fill (x.1.taker intake) x.2 =
        ({ q with intakes := p.intakes.setIfInBounds (intake op) (g.ended x.1.part o) },
          gathered (g.ended x.1.part o)) := by
      have hwrite : p.writeFed g.call.run.host (x.1.taker intake).destination x.2 = (q, o) := hw
      rw [fill_of_some (g := g) (by rw [hx]; exact hg), hwrite, hx, ← intakes_writeFed p _ _ x.2, hw]
      rfl
    rw [List.length_cons] at hlen
    rw [List.map_cons, fillAll, writeAll, hw]
    dsimp only
    rw [hfill]
    rcases xs with _ | ⟨y, ys⟩
    · exact congrArg (Prod.mk _) (List.append_nil _)
    · -- the operation has not ended with this part, as there are others
      have hmore : 0 < (g.ended x.1.part o).remaining := by
        rw [List.length_cons] at hlen
        simp only [Gathering.ended]
        omega
      have hnext := ih (g := g.ended x.1.part o)
        (p := { q with intakes := p.intakes.setIfInBounds (intake op) (g.ended x.1.part o) })
        (by simp [hlt])
        (fun z hz => hop z (List.mem_cons_of_mem _ hz)) (by simp only [Gathering.ended]; omega) hmore
      dsimp only at hnext ⊢
      rw [Gathering.gathered_eq_nil hmore.ne', List.nil_append, hnext, writeAll_setIntakes,
        Array.setIfInBounds_setIfInBounds]
      rfl

theorem setInfeed_setInfeed (p : Platform) (h : Nat) (f f' : Feed FeedTaker) :
    (p.setInfeed h f).setInfeed h f' = p.setInfeed h f' :=
  modifyHost_modifyHost p h _ _

section Feeds

variable {feeds : FeedPair FeedTaker Nat} (hfeeds : (p.host? h).map HostState.feeds = some feeds)

include hfeeds

theorem setInfeed_self : p.setInfeed h feeds.infeed = p := by
  refine ext_hosts (p := p.setInfeed h feeds.infeed) (q := p) fun k => ?_
  rw [setInfeed, host?_modifyHost]
  split
  · next hk =>
    subst hk
    obtain ⟨s, hs, rfl⟩ := Option.map_eq_some_iff.1 hfeeds
    rw [hs]
    rfl
  · rfl

theorem feeds_setInfeed (f : Feed FeedTaker) :
    ((p.setInfeed h f).host? h).map HostState.feeds = some { feeds with infeed := f } := by
  obtain ⟨s, hs, rfl⟩ := Option.map_eq_some_iff.1 hfeeds
  rw [setInfeed, host?_modifyHost, if_pos rfl, hs]
  rfl

theorem serve_taking_of_nil (hb : feeds.infeed.buffers = []) (t : FeedTaker) :
    p.serve (taking t) h = (p.setInfeed h ⟨[], feeds.infeed.waiters ++ [t]⟩, []) := by
  have ht : feeds.infeed.dequeue t = (⟨[], feeds.infeed.waiters ++ [t]⟩, none) := by
    rw [Feed.dequeue, hb]
  rw [serve, hfeeds]
  dsimp only [taking]
  rw [ht]
  rfl

theorem serve_taking_of_cons {bytes : Bytes} {rest : List Bytes}
    (hb : feeds.infeed.buffers = bytes :: rest) (t : FeedTaker) :
    p.serve (taking t) h = (p.setInfeed h ⟨rest, feeds.infeed.waiters⟩).fill t bytes := by
  have ht : feeds.infeed.dequeue t = (⟨rest, feeds.infeed.waiters⟩, some bytes) := by
    rw [Feed.dequeue, hb]
  rw [serve, hfeeds]
  dsimp only [taking]
  rw [ht]
  rfl

omit hfeeds in
/-- An infeed asks for a buffer for each of its destinations, one after the other. -/
theorem takeAll_eq (hfeeds : (p.host? h).map HostState.feeds = some feeds) (op part : Nat)
    (destinations : List Slice) : p.takeAll h (intake op) part destinations =
      let xs := slotsFrom op part destinations
      fillAll ((xs.zip feeds.infeed.buffers).map fun x => (x.1.taker intake, x.2))
        (p.setInfeed h (feeds.infeed.asked intake xs)) := by
  induction destinations generalizing p feeds part with
  | nil =>
    have hsame : feeds.infeed.asked intake [] = feeds.infeed := by simp [Feed.asked]
    exact congrArg (·, []) (show p = p.setInfeed h (feeds.infeed.asked intake []) by
      rw [hsame, setInfeed_self hfeeds])
  | cons destination rest ih =>
    rw [takeAll_cons, slotsFrom_cons]
    dsimp only
    rcases hb : feeds.infeed.buffers with _ | ⟨bytes, more⟩
    · -- nothing is there, so this part and all others wait
      have hasked : (⟨[], feeds.infeed.waiters ++ [⟨intake op, part, destination⟩]⟩ :
            Feed FeedTaker).asked intake (slotsFrom op (part + 1) rest) =
          feeds.infeed.asked intake (⟨op, part, destination⟩ :: slotsFrom op (part + 1) rest) := by
        simp [Feed.asked, hb, Slot.taker]
      rw [serve_taking_of_nil hfeeds hb, ih (feeds_setInfeed hfeeds _)]
      dsimp only
      rw [hasked, setInfeed_setInfeed]
      simp [fillAll]
    · have hasked : (⟨more, feeds.infeed.waiters⟩ : Feed FeedTaker).asked intake
            (slotsFrom op (part + 1) rest) =
          feeds.infeed.asked intake (⟨op, part, destination⟩ :: slotsFrom op (part + 1) rest) := by
        simp [Feed.asked, hb]
      rw [serve_taking_of_cons hfeeds hb, fill_setInfeed]
      have hfill := (feeds_fill p ⟨intake op, part, destination⟩ bytes h).trans hfeeds
      dsimp only
      rw [ih (feeds_setInfeed hfill _)]
      dsimp only
      rw [hasked, setInfeed_setInfeed, List.zip_cons_cons, List.map_cons, fillAll]
      simp only [Slot.taker, fill_setInfeed]

theorem putIn_of_nil (hw : feeds.infeed.waiters = []) (bytes : Bytes) :
    p.putIn h bytes = (p.setInfeed h ⟨feeds.infeed.buffers ++ [bytes], []⟩, []) := by
  have hput : feeds.infeed.enqueue bytes = (⟨feeds.infeed.buffers ++ [bytes], []⟩, none) := by
    rw [Feed.enqueue, hw]
  rw [putIn_eq, serve, hfeeds]
  dsimp only [putting]
  rw [hput]
  rfl

theorem putIn_of_cons {t : FeedTaker} {rest : List FeedTaker}
    (hw : feeds.infeed.waiters = t :: rest) (bytes : Bytes) :
    p.putIn h bytes = (p.setInfeed h ⟨feeds.infeed.buffers, rest⟩).fill t bytes := by
  have hput : feeds.infeed.enqueue bytes = (⟨feeds.infeed.buffers, rest⟩, some t) := by
    rw [Feed.enqueue, hw]
  rw [putIn_eq, serve, hfeeds]
  dsimp only [putting]
  rw [hput]
  rfl

theorem putIn_of_taker {x : Slot} {rest : List FeedTaker} {g : Gathering}
    (hw : feeds.infeed.waiters = x.taker intake :: rest) (hg : p.intakes[intake x.op]? = some g)
    (hpos : 0 < g.remaining) (bytes : Bytes) : p.putIn h bytes =
      let out := writeAll g.call.run.host [(x, bytes)] p
      let g' := g.endedAll (out.2.map Delivery.ending)
      ({ out.1.setInfeed h ⟨feeds.infeed.buffers, rest⟩ with
          intakes := p.intakes.setIfInBounds (intake x.op) g' }, gathered g') := by
  have hfill := @fillAll_eq p intake x.op g [(x, bytes)] hg (by simp) hpos hpos
  have hone : fillAll [(x.taker intake, bytes)] p = p.fill (x.taker intake) bytes :=
    congrArg (Prod.mk _) (List.append_nil _)
  rw [List.map_singleton, hone] at hfill
  rw [putIn_of_cons hfeeds hw, fill_setInfeed, hfill]
  rfl

omit hfeeds in
/-- An infeed that is launched writes the buffers that are there, and its other parts wait. -/
theorem launchInfeed_eq (hfeeds : (p.host? c.run.host).map HostState.feeds = some feeds)
    (hctx : (p.contextOf c.run.host).requireFeeds = .ok ()) (hintake : intake c.node = p.intakes.size)
    {destinations : List Slice} (hne : destinations ≠ []) : p.launchInfeed c destinations =
      let xs := slotsFrom c.node 0 destinations
      let out := writeAll c.run.host (xs.zip feeds.infeed.buffers) p
      let g := Gathering.endedAll { call := c, remaining := destinations.length }
        (out.2.map Delivery.ending)
      ({ out.1.setInfeed c.run.host (feeds.infeed.asked intake xs) with
          intakes := p.intakes.push g }, .ok (gathered g)) := by
  have hpos : 0 < destinations.length := List.length_pos_iff.2 hne
  have hlen : ((slotsFrom c.node 0 destinations).zip feeds.infeed.buffers).length ≤
      destinations.length := by
    rw [List.length_zip, length_slotsFrom]
    exact Nat.min_le_left _ _
  let p' : Platform :=
    { p with intakes := p.intakes.push { call := c, remaining := destinations.length } }
  have htake := @takeAll_eq p' c.run.host intake feeds hfeeds c.node 0 destinations
  have hfill := @fillAll_eq
    (p'.setInfeed c.run.host (feeds.infeed.asked intake (slotsFrom c.node 0 destinations))) intake
    c.node { call := c, remaining := destinations.length }
    ((slotsFrom c.node 0 destinations).zip feeds.infeed.buffers)
    (by rw [hintake]; simp [p', setInfeed, modifyHost])
    (fun x hx => op_of_mem_slotsFrom (List.of_mem_zip hx).1) hlen hpos
  rw [writeAll_setInfeed, writeAll_setIntakes] at hfill
  rw [launchInfeed, hctx]
  dsimp only
  rw [if_neg (by simpa using hne), ← hintake, htake]
  dsimp only
  rw [hfill]
  dsimp only
  rw [hintake]
  simp only [p', setInfeed, modifyHost, setIfInBounds_push_size]

end Feeds

end Platform

end OpFlow
