import OpFlow.Proofs.Frame.Occasions
import OpFlow.Proofs.Kernel.Fates

/-!
Kernels whose threads are tasks. The threads of a launch may be run or lost in any order, and anything
else may happen in between: operations start, other work is carried out or given up, and the host does
what it likes. The launch ends once, with its last thread, by the verdict over the fates of all; and
where each thread ends as its index says, it ends as the threads do when they run one after the other.
-/
namespace OpFlow

open Machine (CallKey Effect Backend)

namespace Platform

inductive Turn
  | launch (c : CallKey) (info : OpInfo) (op : Primitive)
  | perform (work : Work)
  | discard (work : Work)
  | outside (change : Platform → Platform × List (Effect Work)) (h : Occasion change)

/-- The platform after a turn, and what is asked for then. -/
def take (p : Platform) : Turn → Platform × List (Effect Work)
  | .launch c info op =>
    ((backend.launch c info op p).1, Backend.opening c (backend.launch c info op p).2)
  | .perform work => ((backend.perform work p).1, (backend.perform work p).2.1)
  | .discard work => backend.discard work p
  | .outside change _ => change p

end Platform

namespace GridRun

def runThread (g : GridRun) (p : Platform) (l : Nat) : Arena × Except Fault Unit :=
  (g.kernel ⟨g.grid.point l, g.grid, g.arguments, g.results⟩).runOn
    (p.arenaOf g.gathering.call.run.host)

end GridRun

namespace Platform

/-- The thread of a grid run that a turn lets go away, and its fate. -/
def fate? (i : Nat) (p : Platform) : Turn → Option (Nat × Fate)
  | .perform (.thread j l) =>
    if j = i then p.gridRuns[i]?.map fun g => (l, .ofRun (g.runThread p l).2) else none
  | .discard (.thread j l) => if j = i then some (l, .dropped) else none
  | .launch _ _ _ | .perform _ | .discard _ | .outside _ _ => none

def fates (i : Nat) : Platform → List Turn → List (Nat × Fate)
  | _, [] => []
  | p, t :: ts => (p.fate? i t).toList ++ fates i (p.take t).1 ts

/-- What the threads of a grid run have asked for when they went away. -/
def endings (i : Nat) : Platform → List Turn → List (Effect Work)
  | _, [] => []
  | p, t :: ts => (if (p.fate? i t).isSome then (p.take t).2 else []) ++ endings i (p.take t).1 ts

variable {p q : Platform} {i l : Nat} {g : GridRun} {f : Fate} {t : Turn} {ts : List Turn}

/-! ### Turns of other kinds -/

def KeepsGridRuns (p q : Platform) : Prop :=
  ∀ (i : Nat) g, p.gridRuns[i]? = some g → q.gridRuns[i]? = some g

theorem KeepsGridRuns.of_eq (h : q.gridRuns = p.gridRuns) : p.KeepsGridRuns q := fun _ _ hg => h ▸ hg

@[simp] theorem gridRuns_onArena (p : Platform) (h : Nat) (k : Arena → Except Error Arena) :
    (p.onArena h k).1.gridRuns = p.gridRuns := by
  rw [onArena_eq]
  rfl

@[simp] theorem gridRuns_endedBy (p : Platform) (c : CallKey) (k : Arena → Except Error Arena) :
    (p.endedBy c k).1.gridRuns = p.gridRuns := gridRuns_onArena p _ k

@[simp] theorem gridRuns_endedWith (p : Platform) (c : CallKey) (a : Arena) (r : Except Fault Unit) :
    (p.endedWith c a r).1.gridRuns = p.gridRuns := by
  rw [endedWith_eq]
  rfl

@[simp] theorem gridRuns_fill (p : Platform) (t : FeedTaker) (bytes : Bytes) :
    (p.fill t bytes).1.gridRuns = p.gridRuns := by
  unfold fill
  split
  · rfl
  · dsimp only
    unfold writeFed
    split
    · rfl
    · exact gridRuns_onArena ..

@[simp] theorem gridRuns_serve (act : Feed FeedTaker → Feed FeedTaker × Option (FeedTaker × Bytes))
    (h : Nat) (p : Platform) : (p.serve act h).1.gridRuns = p.gridRuns := by
  unfold serve
  split
  · rfl
  · dsimp only
    split
    · exact gridRuns_fill ..
    · rfl

theorem gridRuns_takeAll (p : Platform) (h intake part : Nat) (destinations : List Slice) :
    (p.takeAll h intake part destinations).1.gridRuns = p.gridRuns := by
  induction destinations generalizing p part with
  | nil => rfl
  | cons destination rest ih =>
    rw [takeAll_cons]
    exact (ih _ _).trans (gridRuns_serve ..)

theorem gridRuns_launchInfeed (p : Platform) (c : CallKey) (destinations : List Slice) :
    (p.launchInfeed c destinations).1.gridRuns = p.gridRuns := by
  unfold launchInfeed
  split
  · rfl
  · split
    · rfl
    · exact gridRuns_takeAll ..

theorem gridRuns_foldl_putOut (p : Platform) (h : Nat) (buffers : List Bytes) :
    (buffers.foldl (fun p b => p.putOut h b) p).gridRuns = p.gridRuns := by
  induction buffers generalizing p with
  | nil => rfl
  | cons bytes buffers ih => exact ih _

theorem gridRuns_launchOutfeed (p : Platform) (c : CallKey) (sources : List Slice) :
    (p.launchOutfeed c sources).1.gridRuns = p.gridRuns := by
  unfold launchOutfeed
  dsimp only
  split
  · rfl
  · exact gridRuns_foldl_putOut ..

theorem gridRuns_launchCollective (p : Platform) (c : CallKey) (info : OpInfo) (op : Collective) :
    (p.launchCollective c info op).1.gridRuns = p.gridRuns := by
  cases hentry : p.entry c info op with
  | error e => rw [launchCollective_of_error p hentry]
  | ok e =>
    obtain ⟨timers, heq⟩ := p.launchCollective_of_ok hentry
    rw [heq]

theorem gridRuns_launchCustomCall (p : Platform) (c : CallKey) (target config : String)
    (operands results : List Slice) :
    (p.launchCustomCall c target config operands results).1.gridRuns = p.gridRuns := by
  cases hfind : handlerOf (p.contextOf c.run.host) target with
  | error e =>
    rw [launchCustomCall_of_error hfind]
    rfl
  | ok found =>
    rw [launchCustomCall_of_ok hfind]
    rfl

theorem gridRuns_launchScript (p : Platform) (c : CallKey) (s : Script) :
    (p.launchScript c s).1.gridRuns = p.gridRuns := by
  cases s with
  | write slice bytes => exact gridRuns_endedBy ..
  | succeed | fail | panic | defer => rfl

theorem keepsGridRuns_launchKernel (p : Platform) (c : CallKey) (name : String)
    (arguments results : List Slice) (grid : Grid) :
    p.KeepsGridRuns (p.launchKernel c name arguments results grid).1 := by
  cases hfind : (p.contextOf c.run.host).requireKernels >>= fun ks => Kernel.find ks name with
  | error e =>
    rw [launchKernel_of_error hfind]
    exact .of_eq rfl
  | ok kernel =>
    rw [launchKernel_of_find hfind]
    unfold startThreads
    split
    · exact .of_eq (gridRuns_endedWith ..)
    · exact fun i g hg => getElem?_push_of_some hg
    · exact .of_eq (gridRuns_endedWith ..)

theorem keepsGridRuns_launch (p : Platform) (c : CallKey) (info : OpInfo) (op : Primitive) :
    p.KeepsGridRuns (backend.launch c info op p).1 := by
  cases op with
  | copy src dst => exact .of_eq (gridRuns_endedBy ..)
  | kernel name arguments results grid =>
    exact p.keepsGridRuns_launchKernel c name arguments results grid
  | infeed destinations token => exact .of_eq (gridRuns_launchInfeed ..)
  | outfeed sources token => exact .of_eq (gridRuns_launchOutfeed ..)
  | advanceRandom state delta generator => exact .of_eq (gridRuns_endedBy ..)
  | placeId axis destination => exact .of_eq (gridRuns_endedBy ..)
  | collective op => exact .of_eq (gridRuns_launchCollective ..)
  | customCall target config operands results => exact .of_eq (gridRuns_launchCustomCall ..)
  | scripted _ _ script => exact .of_eq (gridRuns_launchScript ..)

theorem gridRuns_handOut (p : Platform) (ts : List Participant) :
    (p.handOut ts).1.gridRuns = p.gridRuns := by
  cases ts with
  | nil => rfl
  | cons t rest =>
    rw [handOut_cons]
    rfl

theorem gridRuns_attend (p : Platform) (t : Participant) : (p.attend t).1.gridRuns = p.gridRuns := by
  cases hend : p.transport.contributions? t.exchange.kind t.cell with
  | some r =>
    rw [p.attend_of_settled hend]
    exact gridRuns_handOut ..
  | none =>
    rw [p.attend_of_pending hend]

theorem Occasion.gridRuns {change : Platform → Platform × List (Effect Work)} (h : Occasion change)
    (p : Platform) : (change p).1.gridRuns = p.gridRuns := by
  cases h with
  | time pass => rfl
  | expire x => rfl
  | putIn h bytes =>
    dsimp only
    rw [putIn_eq]
    exact gridRuns_serve ..
  | takeOut h => rfl
  | endDeferred i o =>
    dsimp only [Platform.endDeferred]
    split <;> rfl

/-! ### Threads -/

theorem discard_thread (hg : p.gridRuns[i]? = some g) (l : Nat) :
    p.take (.discard (.thread i l)) =
      ({ p with gridRuns := (p.gridRuns.setIfInBounds i
          { g with gathering := g.gathering.part l .dropped }) },
        gathered (g.gathering.part l .dropped)) := by
  change p.loseThread i = _
  rw [loseThread, hg]
  rfl

theorem perform_thread (hg : p.gridRuns[i]? = some g) (l : Nat) :
    p.take (.perform (.thread i l)) =
      let out := g.runThread p l
      let q := p.setArena g.gathering.call.run.host out.1
      ({ q with gridRuns := (q.gridRuns.setIfInBounds i
          { g with gathering := g.gathering.part l (.ofRun out.2) }) },
        gathered (g.gathering.part l (.ofRun out.2))) := by
  have hend : ∀ r, (threadEnd g.gathering l r).1 = g.gathering.part l (.ofRun r) := by
    rintro ((e | text) | u) <;> rfl
  change ((p.runThread i l).1, (p.runThread i l).2.1) = _
  rw [runThread_of_some hg]
  dsimp only
  rw [hend]
  rfl

/-- A thread that goes away is noted by its grid run, which asks for the end of the launch if it was
the last one. -/
theorem take_thread (hg : p.gridRuns[i]? = some g) (ht : p.fate? i t = some (l, f)) :
    (p.take t).1.gridRuns[i]? = some { g with gathering := g.gathering.part l f } ∧
      (p.take t).2 = gathered (g.gathering.part l f) := by
  have hlt : i < p.gridRuns.size := (Array.getElem?_eq_some_iff.1 hg).1
  cases t with
  | perform work =>
    cases work with
    | thread j k =>
      rw [fate?] at ht
      split at ht
      · next hj =>
        subst hj
        rw [hg] at ht
        obtain ⟨rfl, rfl⟩ := Prod.mk.inj (Option.some.inj ht)
        rw [perform_thread hg]
        exact ⟨by simp [setArena, modifyHost, hlt], rfl⟩
      · cases ht
    | attend | resolve | handOut => cases ht
  | discard work =>
    cases work with
    | thread j k =>
      rw [fate?] at ht
      split at ht
      · next hj =>
        subst hj
        obtain ⟨rfl, rfl⟩ := Prod.mk.inj (Option.some.inj ht)
        rw [discard_thread hg]
        exact ⟨by simp [hlt], rfl⟩
      · cases ht
    | attend | resolve | handOut => cases ht
  | launch | outside => cases ht

/-- Nothing else has to do with the grid run. -/
theorem take_other (hg : p.gridRuns[i]? = some g) (ht : p.fate? i t = none) :
    (p.take t).1.gridRuns[i]? = some g := by
  have hset : ∀ {j : Nat} {g' : GridRun} {gathering : Gathering}, j ≠ i →
      (p.gridRuns.setIfInBounds j { g' with gathering })[i]? = some g := fun hne => by
    rw [Array.getElem?_setIfInBounds_ne hne]
    exact hg
  cases t with
  | launch c info op => exact p.keepsGridRuns_launch c info op i g hg
  | perform work =>
    cases work with
    | thread j k =>
      rw [fate?] at ht
      split at ht
      · rw [hg] at ht
        cases ht
      · next hj =>
        cases hj' : p.gridRuns[j]? with
        | none =>
          show (p.runThread j k).1.gridRuns[i]? = _
          rw [runThread, hj']
          exact hg
        | some g' =>
          rw [perform_thread hj']
          exact hset hj
    | attend t => exact (p.gridRuns_attend t).symm ▸ hg
    | resolve values t => exact hg
    | handOut ts => exact (p.gridRuns_handOut ts).symm ▸ hg
  | discard work =>
    cases work with
    | thread j k =>
      rw [fate?] at ht
      split at ht
      · cases ht
      · next hj =>
        cases hj' : p.gridRuns[j]? with
        | none =>
          show (p.loseThread j).1.gridRuns[i]? = _
          rw [loseThread, hj']
          exact hg
        | some g' =>
          rw [discard_thread hj']
          exact hset hj
    | attend | resolve | handOut => exact hg
  | outside change h => exact (h.gridRuns p).symm ▸ hg

/-- As long as there are threads left nothing is asked for, and the last one asks for what all of
them together come to. -/
theorem endings_eq (hg : p.gridRuns[i]? = some g) (ts : List Turn)
    (hle : (fates i p ts).length ≤ g.gathering.remaining) :
    endings i p ts =
      if fates i p ts = [] then [] else gathered (g.gathering.parts (fates i p ts)) := by
  induction ts generalizing p g with
  | nil => rfl
  | cons t ts ih =>
    rw [endings]
    rw [fates] at hle ⊢
    cases ht : p.fate? i t with
    | none =>
      rw [ht] at hle
      exact ih (take_other hg ht) hle
    | some x =>
      obtain ⟨l, f⟩ := x
      obtain ⟨hg', heffects⟩ := take_thread hg ht
      rw [ht] at hle
      have hle' : (fates i (p.take t).1 ts).length + 1 ≤ g.gathering.remaining := by
        simpa using hle
      have hrest := ih hg' (by rw [Gathering.remaining_part]; omega)
      rw [Option.isSome_some, if_pos rfl, heffects, hrest]
      cases hmore : fates i (p.take t).1 ts with
      | nil => simp
      | cons x xs =>
        rw [hmore, List.length_cons] at hle'
        rw [Gathering.gathered_of_remaining (by rw [Gathering.remaining_part]; omega)]
        rfl

/-- The fate of a thread is that it was dropped, or how it ended on the arena it found. -/
theorem mem_fates (hg : p.gridRuns[i]? = some g) (hf : (l, f) ∈ fates i p ts) :
    f = .dropped ∨ ∃ a,
      f = .ofRun ((g.kernel ⟨g.grid.point l, g.grid, g.arguments, g.results⟩).runOn a).2 := by
  induction ts generalizing p g with
  | nil => cases hf
  | cons t ts ih =>
    rw [fates] at hf
    cases ht : p.fate? i t with
    | none =>
      rw [ht] at hf
      exact ih (take_other hg ht) hf
    | some x =>
      rw [ht] at hf
      rcases List.mem_cons.1 hf with rfl | hf
      · cases t with
        | perform work =>
          cases work with
          | thread j k =>
            rw [fate?] at ht
            split at ht
            · rw [hg] at ht
              obtain ⟨rfl, rfl⟩ := Prod.mk.inj (Option.some.inj ht)
              exact .inr ⟨_, rfl⟩
            · cases ht
          | attend | resolve | handOut => cases ht
        | discard work =>
          cases work with
          | thread j k =>
            rw [fate?] at ht
            split at ht
            · exact .inl (Prod.mk.inj (Option.some.inj ht)).2.symm
            · cases ht
          | attend | resolve | handOut => cases ht
        | launch | outside => cases ht
      · have hmore := ih (take_thread hg ht).1 hf
        exact hmore

/-! ### Threads one after the other -/

/-- How some numbers of things end that are done in order, if each ends as its number says and the
first error is the last of it. -/
def firstOutcome (outcome : Nat → Outcome) : Nat → Nat → Outcome
  | 0, _ => .ok ()
  | count + 1, l =>
    match outcome l with
    | .ok () => firstOutcome outcome count (l + 1)
    | .error e => .error e

section InOrder

variable {kernel : Kernel} {frameOf : Nat → KernelFrame} {outcome : Nat → Outcome}

theorem runThreads_eq {count : Nat} (h : ∀ k < count, ∀ a,
    ((kernel (frameOf (l + k))).runOn a).2 = (outcome (l + k)).mapError .error) (a : Arena) :
    (runThreads kernel frameOf count l a).2 = (firstOutcome outcome count l).mapError .error := by
  induction count generalizing l a with
  | zero => rfl
  | succ count ih =>
    have hl := h 0 (Nat.succ_pos _) a
    rw [Nat.add_zero] at hl
    have hrest := fun a => @ih (l + 1) (fun k hk => by
      rw [Nat.add_assoc, Nat.add_comm 1 k]
      exact h (k + 1) (Nat.succ_lt_succ hk)) a
    rw [runThreads, firstOutcome]
    rcases hrun : (kernel (frameOf l)).runOn a with ⟨a', r⟩
    obtain rfl : r = (outcome l).mapError .error := by rw [hrun] at hl; exact hl
    rcases outcome l with e | u
    · rfl
    · exact hrest a'

theorem runAllThreads_eq {count : Nat} (h : ∀ k < count, ∀ a,
    ((kernel (frameOf (l + k))).runOn a).2 = (outcome (l + k)).mapError .error)
    (first : Option Error) (a : Arena) : (runAllThreads kernel frameOf count l first a).2 =
      (first.elim (firstOutcome outcome count l) .error).mapError .error := by
  induction count generalizing l first a with
  | zero => cases first <;> rfl
  | succ count ih =>
    have hl := h 0 (Nat.succ_pos _) a
    rw [Nat.add_zero] at hl
    have hrest := fun first a => @ih (l + 1) (fun k hk => by
      rw [Nat.add_assoc, Nat.add_comm 1 k]
      exact h (k + 1) (Nat.succ_lt_succ hk)) first a
    rw [runAllThreads, firstOutcome]
    rcases hrun : (kernel (frameOf l)).runOn a with ⟨a', r⟩
    obtain rfl : r = (outcome l).mapError .error := by rw [hrun] at hl; exact hl
    rcases outcome l with e | u
    · refine (hrest (first <|> some e) a').trans ?_
      cases first <;> rfl
    · exact hrest first a'

theorem verdict_firstOutcome (outcome : Nat → Outcome) (count l : Nat) :
    Verdict ((List.range' l count).map fun k => (k, .ofRun ((outcome k).mapError .error)))
      (firstOutcome outcome count l) := by
  induction count generalizing l with
  | zero => exact ⟨by simp [firstOutcome], by simp [firstOutcome], by simp⟩
  | succ count ih =>
    rw [List.range'_succ, List.map_cons, firstOutcome]
    rcases outcome l with e | u
    · refine .cons_failed (fun f hf => ?_) fun f hf => ?_
      · obtain ⟨k, hk, rfl⟩ := List.mem_map.1 hf
        exact (List.mem_range'_1.1 hk).1
      · obtain ⟨k, -, rfl⟩ := List.mem_map.1 hf
        rcases outcome k with e | u <;> rfl
    · exact (ih (l + 1)).cons_returned l

/-- Threads that are not handed to a runner end by the first error among them. -/
theorem launch_in_order {c : CallKey} {info : OpInfo} {name : String} {arguments results : List Slice}
    {grid : Grid}
    (hkernel : ((p.contextOf c.run.host).requireKernels >>= fun ks => Kernel.find ks name) =
      .ok kernel)
    (hmode : ∀ runner, p.modeOf c.run.host ≠ .onRunner runner)
    (h : ∀ l < grid.count, ∀ a, ((kernel ⟨grid.point l, grid, arguments, results⟩).runOn a).2 =
      (outcome l).mapError .error) :
    ∃ p', backend.launch c info (.kernel name arguments results grid) p =
      (p', .ok [.settle c (firstOutcome outcome grid.count 0)]) := by
  have h' : ∀ k < grid.count, ∀ a, ((kernel ⟨grid.point (0 + k), grid, arguments, results⟩).runOn
      a).2 = (outcome (0 + k)).mapError .error := fun k hk a => by
    rw [Nat.zero_add]
    exact h k hk a
  have hending : ∀ o : Outcome, endingOf c (o.mapError .error) = .ok [.settle c o] := by
    rintro (e | u) <;> rfl
  change ∃ p', p.launchKernel c name arguments results grid = _
  rw [launchKernel_of_find hkernel]
  unfold startThreads
  split
  · rw [endedWith_eq, runAllThreads_eq h', Option.elim_none, hending]
    exact ⟨_, rfl⟩
  · next runner hrunner _ => exact absurd hrunner (hmode runner)
  · rw [endedWith_eq, runThreads_eq h', hending]
    exact ⟨_, rfl⟩

end InOrder

/-- A kernel that runs in parallel ends once, with the last of its threads, whatever else happens and
in whatever order the threads return, fail, panic or get lost. It ends by the verdict over all their
fates. If how a thread ends depends on its index alone, and none is lost, it ends just as it does where
threads are not handed to a runner. -/
theorem parallel_launch {c : CallKey} {info : OpInfo} {name : String} {arguments results : List Slice}
    {grid : Grid} {kernel : Kernel} {runner : Nat}
    (hkernel : ((p.contextOf c.run.host).requireKernels >>= fun ks => Kernel.find ks name) =
      .ok kernel)
    (hmode : p.modeOf c.run.host = .onRunner runner) (hcount : 1 < grid.count) :
    ∃ p', backend.launch c info (.kernel name arguments results grid) p = (p', .ok
        ((List.range grid.count).map fun l => .submit runner (.thread p.gridRuns.size l))) ∧
      ∀ ts fs, fates p.gridRuns.size p' ts = fs →
        (fs.map Prod.fst).Nodup → (∀ f ∈ fs, f.1 < grid.count) →
        (fs.length < grid.count → endings p.gridRuns.size p' ts = []) ∧
        (fs.length = grid.count → ∃ o, endings p.gridRuns.size p' ts = [.settle c o] ∧
          Verdict fs o ∧
          ∀ outcome : Nat → Outcome,
            (∀ l < grid.count, ∀ a, ((kernel ⟨grid.point l, grid, arguments, results⟩).runOn a).2 =
              (outcome l).mapError .error) →
            (∀ f ∈ fs, f.2.isLost = false) →
            ∀ q : Platform,
              ((q.contextOf c.run.host).requireKernels >>= fun ks => Kernel.find ks name) =
                .ok kernel →
              (∀ runner, q.modeOf c.run.host ≠ .onRunner runner) →
              ∃ q', backend.launch c info (.kernel name arguments results grid) q =
                (q', .ok [.settle c o])) := by
  let g : GridRun := ⟨{ call := c, remaining := grid.count }, kernel, arguments, results, grid⟩
  let p' : Platform := { p with gridRuns := p.gridRuns.push g }
  have hg : p'.gridRuns[p.gridRuns.size]? = some g := Array.getElem?_push_size
  refine ⟨p', ?_, fun ts fs hfates hdistinct hlt => ?_⟩
  · change p.launchKernel c name arguments results grid = _
    rw [launchKernel_of_find hkernel, hmode, startThreads]
    exact decide_eq_true hcount
  · have hsub : (fs.map Prod.fst).Subperm (List.range grid.count) :=
      List.subperm_of_subset hdistinct fun l hl => by
        obtain ⟨f, hf, rfl⟩ := List.mem_map.1 hl
        exact List.mem_range.2 (hlt f hf)
    have hle : fs.length ≤ grid.count := by simpa using hsub.length_le
    have hendings := endings_eq hg ts (by rw [hfates]; exact hle)
    rw [hfates] at hendings
    refine ⟨fun hfew => ?_, fun hall => ?_⟩
    · rw [hendings]
      split
      · rfl
      · refine Gathering.gathered_of_remaining ?_
        rw [Gathering.remaining_parts]
        exact Nat.sub_pos_of_lt hfew
    · obtain ⟨o, hgathered, hverdict⟩ := @Gathering.gathered_parts fs c hdistinct
      rw [hall] at hgathered
      rw [if_neg (List.ne_nil_of_length_pos (by omega)), hgathered] at hendings
      refine ⟨o, hendings, hverdict, fun outcome houtcome hkept q hq hqmode => ?_⟩
      -- the fates are those of all threads of the grid, in another order
      have hmem : ∀ f, f ∈ fs ↔ f ∈ (List.range' 0 grid.count).map fun k =>
          (k, Fate.ofRun ((outcome k).mapError .error)) := by
        have hfate : ∀ l f, (l, f) ∈ fs → f = .ofRun ((outcome l).mapError .error) :=
          fun l f hf => by
            rcases mem_fates hg (hfates ▸ hf) with rfl | ⟨a, rfl⟩
            · cases hkept _ hf
            · rw [houtcome l (hlt _ hf) a]
        have hperm := hsub.perm_of_length_le (by simp [hall])
        rintro ⟨l, f⟩
        constructor
        · intro hf
          refine List.mem_map.2 ⟨l, List.mem_range'_1.2 ⟨Nat.zero_le _, ?_⟩, ?_⟩
          · rw [Nat.zero_add]
            exact hlt _ hf
          · rw [hfate l f hf]
        · intro hf
          obtain ⟨k, hk, heq⟩ := List.mem_map.1 hf
          obtain ⟨rfl, rfl⟩ := Prod.mk.inj heq
          have hlk : k < grid.count := by simpa using hk
          obtain ⟨⟨k', f⟩, hmem, rfl⟩ := List.mem_map.1 (hperm.mem_iff.2 (List.mem_range.2 hlk))
          rw [← hfate k' f hmem]
          exact hmem
      obtain rfl := hverdict.unique ((verdict_firstOutcome outcome grid.count 0).congr hmem)
      exact launch_in_order hq hqmode houtcome

def kernelHost (threads : ThreadMode) : Platform where
  hosts := #[{ arena := ⟨#[]⟩, context := { kernels := some Kernel.builtin }, threads }]
  transport := .ofTimeout 100

/-- Both threads of a grid fail, the second one first. -/
theorem parallel_launch_pair :
    let c : CallKey := ⟨⟨0, 0, []⟩, 0⟩
    let op : Primitive := .kernel "fail" [] [] ⟨2, 1, 1⟩
    let e : Error := .execution "kernel failed"
    ∃ p' q', backend.launch c { name := "k" } op (kernelHost (.onRunner 0)) =
        (p', .ok [.submit 0 (.thread 0 0), .submit 0 (.thread 0 1)]) ∧
      fates 0 p' [.perform (.thread 0 1), .perform (.thread 0 0)] =
        [(1, .failed e), (0, .failed e)] ∧
      endings 0 p' [.perform (.thread 0 1), .perform (.thread 0 0)] = [.settle c (.error e)] ∧
      backend.launch c { name := "k" } op (kernelHost .inOrder) =
        (q', .ok [.settle c (.error e)]) := by
  intro c op e
  obtain ⟨p', hlaunch, h⟩ := @parallel_launch (kernelHost (.onRunner 0)) c { name := "k" } "fail" [] []
    ⟨2, 1, 1⟩ (fun _ => Routine.fail e) 0 rfl rfl (by decide)
  have hfates : fates 0 p' [.perform (.thread 0 1), .perform (.thread 0 0)] =
      [(1, .failed e), (0, .failed e)] := by
    obtain rfl : _ = p' := congrArg Prod.fst hlaunch
    rfl
  obtain ⟨-, hall⟩ := h _ _ hfates (by decide) (by simp [show Grid.count ⟨2, 1, 1⟩ = 2 from rfl])
  obtain ⟨o, hendings, hverdict, hsame⟩ := hall rfl
  obtain rfl : o = .error e := (hverdict.first (by simp [Fate.isLost]) e).2
    ⟨0, by simp, fun l' e' hl => Nat.zero_le l'⟩
  obtain ⟨q', hq'⟩ := hsame (fun _ => .error e) (fun _ _ _ => rfl) (by simp [Fate.isLost])
    (kernelHost .inOrder) rfl (fun _ hmode => by cases hmode)
  exact ⟨p', q', hlaunch, hfates, hendings, hq'⟩

end Platform

end OpFlow
