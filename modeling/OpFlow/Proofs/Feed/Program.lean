import OpFlow.Proofs.Feed.Bystanders
import OpFlow.Proofs.Frame.Coverage
import OpFlow.Proofs.Machine.Staged

/-!
Programs that feed. A host executes a program of leaf operations once; all its infeeds share a token,
and so do all its outfeeds, so each of them comes after the ones before it. The host puts buffers into
its infeed and takes buffers from its outfeed whenever it likes.
-/
namespace OpFlow

open Machine (CallKey Crew RunKey World)

/-- A program that a host is to execute once, with the tokens of its feeds. -/
structure FeedJob where
  world : World Primitive Platform Work
  host : Nat
  program : Program Primitive
  infeedToken : Resource
  outfeedToken : Resource

namespace FeedJob

variable (J : FeedJob)

/-- The only execution of the program. -/
def run : RunKey := ⟨J.host, 0, []⟩

def key (i : Nat) : CallKey := ⟨J.run, i⟩

def Performs (i : Nat) (op : Primitive) : Prop := ∃ info, J.program.ops[i]? = some (.leaf info op)

def destinations? (i : Nat) : Option (List Slice) :=
  match J.program.ops[i]? with
  | some (.leaf _ (.infeed destinations _)) => some destinations
  | _ => none

def sources? (i : Nat) : Option (List Slice) :=
  match J.program.ops[i]? with
  | some (.leaf _ (.outfeed sources _)) => some sources
  | _ => none

/-- The slots of the infeeds before operation `n`, in program order. -/
def slots (n : Nat) : List Slot :=
  (List.range n).flatMap fun i => slotsFrom i 0 ((J.destinations? i).getD [])

def outfeeds (n : Nat) : List Nat := (List.range n).filter fun i => (J.sources? i).isSome

def FeedCall (c : CallKey) : Prop :=
  c.run = J.run ∧ ((J.destinations? c.node).isSome ∨ (J.sources? c.node).isSome)

/-- All infeeds share a token and all outfeeds do; the feeds of the host are fresh, and nothing is in
flight. -/
structure IsWellFormed : Prop where
  fresh : J.world.IsFresh
  program : J.world.program? J.host = some J.program
  straight : ∀ k program, J.world.program? k = some program → Machine.Region.IsStraight program
  infeeds : ∀ i destinations token, J.Performs i (.infeed destinations token) → token = J.infeedToken
  outfeeds : ∀ i sources token, J.Performs i (.outfeed sources token) → token = J.outfeedToken
  feeds : ∃ s, J.world.device.host? J.host = some s ∧ s.feeds = {} ∧ s.outfed = #[]
  context : (J.world.device.contextOf J.host).requireFeeds = .ok ()
  quiet : J.world.device.IsQuiet
  deferred : J.world.device.deferred = #[]

def plan (r : RunKey) (region : Program Primitive) : Prop :=
  r.scope = [] ∧ (r.host = J.host → r.execution = 0) ∧ J.world.program? r.host = some region

variable {J} {i j n : Nat} {destinations sources : List Slice} {c : CallKey} {info : OpInfo}
  {op : Primitive} {region : Program Primitive}

theorem destinations?_eq_some :
    J.destinations? i = some destinations ↔ ∃ token, J.Performs i (.infeed destinations token) := by
  unfold destinations? Performs
  constructor
  · intro h
    split at h
    · next info ds token hop =>
      cases h
      exact ⟨token, info, hop⟩
    · cases h
  · rintro ⟨token, info, hop⟩
    rw [hop]

theorem sources?_eq_some :
    J.sources? i = some sources ↔ ∃ token, J.Performs i (.outfeed sources token) := by
  unfold sources? Performs
  constructor
  · intro h
    split at h
    · next info ss token hop =>
      cases h
      exact ⟨token, info, hop⟩
    · cases h
  · rintro ⟨token, info, hop⟩
    rw [hop]

theorem Performs.unique {op' : Primitive} (h : J.Performs i op) (h' : J.Performs i op') : op = op' := by
  obtain ⟨info, h⟩ := h
  obtain ⟨info', h'⟩ := h'
  cases h.symm.trans h'
  rfl

theorem key_inj : J.key i = J.key j ↔ i = j := by simp [key]

/-! ### Slots -/

theorem slots_succ (n : Nat) :
    J.slots (n + 1) = J.slots n ++ slotsFrom n 0 ((J.destinations? n).getD []) := by
  rw [slots, List.range_succ, List.flatMap_append, List.flatMap_singleton, slots]

theorem mem_slots {x : Slot} (h : x ∈ J.slots n) :
    x.op < n ∧ ∃ d ds, J.destinations? x.op = some (d :: ds) := by
  obtain ⟨i, hi, hx⟩ := List.mem_flatMap.1 h
  obtain rfl := op_of_mem_slotsFrom hx
  refine ⟨List.mem_range.1 hi, ?_⟩
  rcases hd : J.destinations? x.op with _ | _ | ⟨d, ds⟩
  · rw [hd] at hx
    cases hx
  · rw [hd] at hx
    cases hx
  · exact ⟨d, ds, rfl⟩

theorem slots_eq_of_none {m : Nat} (hmn : m ≤ n)
    (hnone : ∀ i, m ≤ i → i < n → J.destinations? i = none) : J.slots n = J.slots m := by
  induction n, hmn using Nat.le_induction with
  | base => rfl
  | succ k hk ih =>
    rw [slots_succ, ih fun i hi hik => hnone i hi (Nat.lt_succ_of_lt hik),
      hnone k hk (Nat.lt_succ_self k)]
    exact List.append_nil _

theorem outfeeds_succ_of_some (h : J.sources? n = some sources) :
    J.outfeeds (n + 1) = J.outfeeds n ++ [n] := by
  rw [outfeeds, List.range_succ, List.filter_append, outfeeds]
  simp [h]

theorem outfeeds_eq_of_none {m : Nat} (hmn : m ≤ n)
    (hnone : ∀ i, m ≤ i → i < n → J.sources? i = none) : J.outfeeds n = J.outfeeds m := by
  induction n, hmn using Nat.le_induction with
  | base => rfl
  | succ k hk ih =>
    rw [← ih fun i hi hik => hnone i hi (Nat.lt_succ_of_lt hik), outfeeds, List.range_succ,
      List.filter_append, outfeeds]
    simp [hnone k hk (Nat.lt_succ_self k)]

theorem slots_of_next (hi : J.destinations? i = some destinations) (hni : n ≤ i)
    (hbefore : ∀ j < i, ∀ ds, J.destinations? j = some ds → j < n) :
    J.slots (i + 1) = J.slots n ++ slotsFrom i 0 destinations := by
  rw [slots_succ, hi, Option.getD_some, slots_eq_of_none hni fun j hj hji => ?_]
  by_contra hne
  obtain ⟨ds, hds⟩ := Option.ne_none_iff_exists'.1 hne
  exact absurd (hbefore j hji ds hds) (Nat.not_lt.2 hj)

theorem outfeeds_of_next (hi : J.sources? i = some sources) (hni : n ≤ i)
    (hbefore : ∀ j < i, ∀ ss, J.sources? j = some ss → j < n) :
    J.outfeeds (i + 1) = J.outfeeds n ++ [i] := by
  rw [outfeeds_succ_of_some hi, outfeeds_eq_of_none hni fun j hj hji => ?_]
  by_contra hne
  obtain ⟨ss, hss⟩ := Option.ne_none_iff_exists'.1 hne
  exact absurd (hbefore j hji ss hss) (Nat.not_lt.2 hj)

theorem mem_slots_of_mem {x : Slot} (hi : J.destinations? i = some destinations) (hin : i < n)
    (hx : x ∈ slotsFrom i 0 destinations) : x ∈ J.slots n :=
  List.mem_flatMap.2 ⟨i, List.mem_range.2 hin, by rw [hi]; exact hx⟩

theorem mem_outfeeds : i ∈ J.outfeeds n ↔ i < n ∧ (J.sources? i).isSome := by
  rw [outfeeds, List.mem_filter, List.mem_range]

theorem Performs.lt (h : J.Performs i op) : i < J.program.ops.length :=
  let ⟨_, h⟩ := h
  (List.getElem?_eq_some_iff.1 h).1

theorem lt_of_destinations? (h : J.destinations? i = some destinations) :
    i < J.program.ops.length :=
  let ⟨_, h⟩ := destinations?_eq_some.1 h
  h.lt

theorem lt_of_sources? (h : J.sources? i = some sources) : i < J.program.ops.length :=
  let ⟨_, h⟩ := sources?_eq_some.1 h
  h.lt

theorem slots_eq_all (hall : ∀ i ds, J.destinations? i = some ds → i < n) :
    J.slots n = J.slots J.program.ops.length := by
  have hnone : ∀ i, ¬ i < n → J.destinations? i = none := fun i hi =>
    Option.eq_none_iff_forall_ne_some.2 fun ds hds => hi (hall i ds hds)
  have hbeyond : ∀ i, ¬ i < J.program.ops.length → J.destinations? i = none := fun i hi =>
    Option.eq_none_iff_forall_ne_some.2 fun ds hds => hi (lt_of_destinations? hds)
  rcases Nat.le_total n J.program.ops.length with hle | hle
  · exact (slots_eq_of_none hle fun i hi _ => hnone i (Nat.not_lt.2 hi)).symm
  · exact slots_eq_of_none hle fun i hi _ => hbeyond i (Nat.not_lt.2 hi)

theorem outfeeds_eq_all (hall : ∀ i ss, J.sources? i = some ss → i < n) :
    J.outfeeds n = J.outfeeds J.program.ops.length := by
  have hnone : ∀ i, ¬ i < n → J.sources? i = none := fun i hi =>
    Option.eq_none_iff_forall_ne_some.2 fun ss hss => hi (hall i ss hss)
  have hbeyond : ∀ i, ¬ i < J.program.ops.length → J.sources? i = none := fun i hi =>
    Option.eq_none_iff_forall_ne_some.2 fun ss hss => hi (lt_of_sources? hss)
  rcases Nat.le_total n J.program.ops.length with hle | hle
  · exact (outfeeds_eq_of_none hle fun i hi _ => hnone i (Nat.not_lt.2 hi)).symm
  · exact outfeeds_eq_of_none hle fun i hi _ => hbeyond i (Nat.not_lt.2 hi)

/-! ### The order of feeds -/

namespace IsWellFormed

variable (hJ : J.IsWellFormed)

include hJ

theorem isPlan : Crew.IsPlan J.plan :=
  ⟨fun _ _ h => h.1, fun _ _ h => hJ.straight _ _ h.2.2⟩

omit hJ in
theorem plan_unique {r : RunKey} {region region' : Program Primitive} (h : J.plan r region)
    (h' : J.plan r region') : region = region' := Option.some.inj (h.2.2.symm.trans h'.2.2)

theorem of_plan (hr : J.plan c.run region) (hop : region.ops[c.node]? = some (.leaf info op))
    (hhost : c.run.host = J.host) :
    c = J.key c.node ∧ region = J.program ∧ J.Performs c.node op := by
  obtain ⟨hscope, hexecution, hprogram⟩ := hr
  rw [hhost, hJ.program] at hprogram
  obtain rfl := Option.some.inj hprogram
  refine ⟨?_, rfl, info, hop⟩
  obtain ⟨⟨host, execution, scope⟩, node⟩ := c
  obtain rfl : host = J.host := hhost
  obtain rfl : execution = 0 := hexecution rfl
  obtain rfl : scope = [] := hscope
  rfl

omit hJ in
theorem conflicts_of_resource {op op' : Primitive} {token : Resource} (hi : J.Performs i op)
    (hj : J.Performs j op') (hop : .write token ∈ op.footprint.resources)
    (hop' : .write token ∈ op'.footprint.resources) : J.program.graph.conflicts i j := by
  obtain ⟨info, hi⟩ := hi
  obtain ⟨info', hj⟩ := hj
  have hfootprint : ∀ {k : Nat} {info : OpInfo} {op : Primitive},
      J.program.ops[k]? = some (.leaf info op) →
        J.program.footprints[k]? = some op.footprint := fun {k info op} hk => by
    rw [Region.footprints, List.getElem?_map, hk]
    rfl
  refine Graph.conflicts_build_iff.2 ⟨_, _, hfootprint hi, hfootprint hj, ?_⟩
  rw [Footprint.conflicts, Bool.or_eq_true]
  exact .inr (List.any_eq_true.2 ⟨_, hop, List.any_eq_true.2 ⟨_, hop', by
    simp [ResourceUse.conflicts, ResourceUse.write, Access.conflicts, Access.isWrite]⟩⟩)

theorem conflicts_infeeds {destinations' : List Slice} (hi : J.destinations? i = some destinations)
    (hj : J.destinations? j = some destinations') : J.program.graph.conflicts i j := by
  obtain ⟨token, hi⟩ := destinations?_eq_some.1 hi
  obtain ⟨token', hj⟩ := destinations?_eq_some.1 hj
  obtain rfl := hJ.infeeds _ _ _ hi
  obtain rfl := hJ.infeeds _ _ _ hj
  exact conflicts_of_resource hi hj List.mem_cons_self List.mem_cons_self

theorem conflicts_outfeeds {sources' : List Slice} (hi : J.sources? i = some sources)
    (hj : J.sources? j = some sources') : J.program.graph.conflicts i j := by
  obtain ⟨token, hi⟩ := sources?_eq_some.1 hi
  obtain ⟨token', hj⟩ := sources?_eq_some.1 hj
  obtain rfl := hJ.outfeeds _ _ _ hi
  obtain rfl := hJ.outfeeds _ _ _ hj
  exact conflicts_of_resource hi hj List.mem_cons_self List.mem_cons_self

end IsWellFormed

/-! ### What goes through -/

end FeedJob

def Platform.infeedOf (p : Platform) (h : Nat) : Option (Feed FeedTaker) :=
  (p.portOf h).map fun port => port.1.infeed

def Platform.slotOf (p : Platform) (t : FeedTaker) : Slot :=
  ⟨(p.intakes[t.intake]?).elim 0 fun g => g.call.node, t.part, t.destination⟩

/-- What has gone through the feeds of a host so far. -/
structure Traffic where
  /-- The buffers that the host has put in. -/
  given : List Bytes := []
  received : List Delivery := []
  /-- What each outfeed has put out. -/
  sent : List (Nat × List Bytes) := []

namespace FeedJob

variable (J : FeedJob)

/-- What is received when an operation is called: an infeed gets the buffers that are there. -/
def taken (p : Platform) : Option (CallKey × OpInfo × Primitive) → List Delivery
  | some (c, _, .infeed destinations _) =>
    if c.run.host = J.host then
      (Platform.writeAll J.host ((slotsFrom c.node 0 destinations).zip
        ((p.infeedOf J.host).elim [] Feed.buffers)) p).2
    else []
  | _ => []

/-- What is put out when an operation is called: an outfeed puts out what its sources hold, if they
can all be read. -/
def putOut (p : Platform) : Option (CallKey × OpInfo × Primitive) → List (Nat × List Bytes)
  | some (c, _, .outfeed sources _) =>
    if c.run.host = J.host then
      match sources.mapM (p.arenaOf J.host).read with
      | .ok buffers => [(c.node, buffers)]
      | .error _ => []
    else []
  | _ => []

/-- What is received when the host puts in a buffer: it goes to whoever has waited longest. -/
def handed (p : Platform) (bytes : Bytes) : List Delivery :=
  match (p.infeedOf J.host).elim [] Feed.waiters with
  | [] => []
  | t :: _ => (Platform.writeAll J.host [(p.slotOf t, bytes)] p).2

def called (p : Platform) (x : Option (CallKey × OpInfo × Primitive)) (T : Traffic) : Traffic :=
  { T with received := T.received ++ J.taken p x, sent := T.sent ++ J.putOut p x }

def fed (p : Platform) (bytes : Bytes) (T : Traffic) : Traffic :=
  { T with given := T.given ++ [bytes], received := T.received ++ J.handed p bytes }

/-- One move of a crew, and what goes through the feeds with it. The program is executed once; tasks
are taken up in any order and may get lost, and outside the host puts in and takes out buffers, time
passes, and operations end that wait for somebody there. -/
inductive Step : Crew.Choice Platform Work → Crew Primitive Platform Work → Traffic →
    Crew Primitive Platform Work → Traffic → Prop
  | own {ch : Crew.Choice Platform Work} {s t : Crew Primitive Platform Work} {T : Traffic}
      (hm : Crew.Move Platform.backend ch s t) (hch : ∀ change, ch ≠ .outside change)
      (honce : ch = .execute J.host → ∀ host, s.world.hosts[J.host]? = some host →
        host.executions.size = 0) :
      Step ch s T t (J.called s.world.device (s.calling? ch) T)
  | put {s t : Crew Primitive Platform Work} {T : Traffic} (bytes : Bytes)
      (hm : Crew.Move Platform.backend (.outside fun p => p.putIn J.host bytes) s t) :
      Step (.outside fun p => p.putIn J.host bytes) s T t (J.fed s.world.device bytes T)
  | outside {change : Platform → Platform × List (Machine.Effect Work)}
      {s t : Crew Primitive Platform Work} {T : Traffic}
      (hm : Crew.Move Platform.backend (.outside change) s t) (ho : Platform.Occasion change)
      (hput : ∀ bytes, change ≠ fun p => p.putIn J.host bytes) :
      Step (.outside change) s T t T

/-- What moves of a crew lead to, with all that has gone through the feeds. -/
inductive Runs : Crew Primitive Platform Work → Traffic → Prop
  | start : Runs { world := J.world } {}
  | step {ch : Crew.Choice Platform Work} {s t : Crew Primitive Platform Work} {T U : Traffic}
      (hs : Runs s T) (h : J.Step ch s T t U) : Runs t U

variable {J} {p : Platform} {T : Traffic}

@[simp] theorem sent_called (x : Option (CallKey × OpInfo × Primitive)) :
    (J.called p x T).sent = T.sent ++ J.putOut p x := rfl

@[simp] theorem received_called (x : Option (CallKey × OpInfo × Primitive)) :
    (J.called p x T).received = T.received ++ J.taken p x := rfl

@[simp] theorem given_fed (bytes : Bytes) : (J.fed p bytes T).given = T.given ++ [bytes] := rfl

@[simp] theorem putOut_infeed (token : Resource) :
    J.putOut p (some (c, info, .infeed destinations token)) = [] := rfl

@[simp] theorem taken_outfeed (token : Resource) :
    J.taken p (some (c, info, .outfeed sources token)) = [] := rfl

@[simp] theorem called_none : J.called p none T = T := by simp [called, taken, putOut]

theorem called_eq_self (hop : op.IsFeed → c.run.host ≠ J.host) :
    J.called p (some (c, info, op)) T = T := by
  have htaken : J.taken p (some (c, info, op)) = [] := by
    cases op with
    | infeed => exact if_neg (hop trivial)
    | _ => rfl
  have hputOut : J.putOut p (some (c, info, op)) = [] := by
    cases op with
    | outfeed => exact if_neg (hop trivial)
    | _ => rfl
  rw [called, htaken, hputOut, List.append_nil, List.append_nil]

theorem putOut_of_ok {token : Resource} {buffers : List Bytes}
    (hread : sources.mapM (p.arenaOf J.host).read = .ok buffers) :
    J.putOut p (some (J.key i, info, .outfeed sources token)) = [(i, buffers)] := by
  simp only [putOut, key, run, if_true, hread]

theorem putOut_of_error {token : Resource} {e : Error}
    (hread : sources.mapM (p.arenaOf J.host).read = .error e) :
    J.putOut p (some (J.key i, info, .outfeed sources token)) = [] := by
  simp only [putOut, key, run, if_true, hread]

end FeedJob

end OpFlow
