import OpFlow.Proofs.Machine.Scheduled

/-!
The ways in which a run that goes by its graph can move: it begins, a node's turn is handed over,
taken, lost, passed over or used, a call is started, awaited or ended, a holder lets go, and the run
is settled. No node that is visited conflicts with one in flight, and nobody lets go too early.
-/
namespace OpFlow

namespace Schedule

variable (s : Schedule) (node : Nat) (e : Error)

@[simp] theorem graph_enter : (s.enter node).graph = s.graph := by unfold enter; split <;> rfl
@[simp] theorem pending_enter : (s.enter node).pending = s.pending := by unfold enter; split <;> rfl
@[simp] theorem poisoned_enter : (s.enter node).poisoned = s.poisoned := by
  unfold enter; split <;> rfl
@[simp] theorem remaining_enter : (s.enter node).remaining = s.remaining := by
  unfold enter; split <;> rfl
@[simp] theorem graph_leave : (s.leave node).graph = s.graph := by unfold leave; split <;> rfl
@[simp] theorem pending_leave : (s.leave node).pending = s.pending := by unfold leave; split <;> rfl
@[simp] theorem poisoned_leave : (s.leave node).poisoned = s.poisoned := by
  unfold leave; split <;> rfl
@[simp] theorem remaining_leave : (s.leave node).remaining = s.remaining := by
  unfold leave; split <;> rfl
@[simp] theorem verify_leave : (s.leave node).verify = s.verify := by unfold leave; split <;> rfl
@[simp] theorem skipped_leave : (s.leave node).skipped = s.skipped := by unfold leave; split <;> rfl
@[simp] theorem firstError_leave : (s.leave node).firstError = s.firstError := by
  unfold leave; split <;> rfl

theorem mem_running_leave (hv : s.verify = true) {k : Nat} :
    k ∈ (s.leave node).running ↔ k ∈ s.running ∧ k ≠ node := by
  simp [leave, hv]

theorem recordError_eq : s.recordError node e =
    { s with firstError := (s.recordError node e).firstError } := by
  unfold recordError
  split
  · split
    · rfl
    · rfl
  · rfl

theorem firstError_recordError_congr {s t : Schedule} (h : t.firstError = s.firstError) :
    (t.recordError node e).firstError = (s.recordError node e).firstError := by
  simp only [recordError, h]
  split
  · split <;> simp_all
  · rfl

def noteEnd (info : OpInfo) : Outcome → Schedule
  | .error e => (s.leave node).recordError node (e.attributedTo info)
  | .ok () => s.leave node

theorem noteEnd_eq (info : OpInfo) (o : Outcome) : s.noteEnd node info o =
    { s.leave node with firstError := (s.noteEnd node info o).firstError } := by
  cases o with
  | error e => exact recordError_eq _ _ _
  | ok => rfl

end Schedule

namespace Machine.RunView.Scheduled

variable {α : Type} [Leaf α] {V V' : RunView α} {region : Program α} {st : Nat → NodeState}
  {s : Schedule} {holders : Nat} {fin : Option Outcome} {j : Nat}

/-- A run begins with the nodes that wait for nothing. -/
theorem ofStart (hconcurrent : V'.concurrent = true) (hne : region.ops ≠ [])
    (hunordered : region.graph.isSequential = false) (hregions : V'.regions = [region])
    (hrun : V'.run = some ⟨region, .scheduled (.start region.graph region.verify) 1⟩)
    (hprogress : ∀ k, V'.progress k = none)
    (hcount : ∀ y, V'.count y = ([Sign.started, .hold] ++
      region.graph.sources.map fun k => Sign.node k .turn).count y) :
    V'.Scheduled region (fun k => if k ∈ region.graph.sources then .due else .waiting)
      (.start region.graph region.verify) 1 none := by
  have hnodup : region.graph.sources.Nodup := Graph.nodup_filter_range _ _
  have hother : ∀ y : Sign, (∀ k, y ≠ .node k .turn) → V'.count y = [Sign.started, .hold].count y := by
    intro y hy
    have hnone : (region.graph.sources.map fun k => Sign.node k .turn).count y = 0 := by
      refine List.count_eq_zero_of_not_mem ?_
      simp only [List.mem_map, not_exists, not_and]
      exact fun k _ h => hy k h.symm
    rw [hcount, List.count_append, hnone, Nat.add_zero]
  have hturn : ∀ k, V'.count (.node k .turn) = if k ∈ region.graph.sources then 1 else 0 := by
    intro k
    rw [hcount, List.count_append, List.count_map_of_injective region.graph.sources
      (fun k => Sign.node k .turn) (fun a b hab => by simpa using hab) k, hnodup.count]
    simp
  have hdone : (fun k => (if k ∈ region.graph.sources then NodeState.due
      else .waiting).isDone) = fun _ => false := by
    funext k
    split <;> rfl
  have hbad : (fun k => (if k ∈ region.graph.sources then NodeState.due
      else .waiting).isBad) = fun _ => false := by
    funext k
    split <;> rfl
  refine ⟨hregions, hconcurrent, hunordered, by simp [hother], by simp [hother], fun _ => hrun,
    fun o ho => by simp [hother] at ho, fun k => ?_, .start, ?_, ?_, fun _ _ => ?_, by simp [hother],
    fun _ => ?_, by simp, by simp, by simp⟩
  · have ht : V'.marks k .turn = _ := hturn k
    have hm : ∀ m, m ≠ .turn → V'.marks k m = 0 := fun m hm => by
      simp [marks, hother, hm]
    have hq := hm .queued (by simp)
    have hfixed : ∀ m, m.isFixed → V'.marks k m = 0 := fun m hk =>
      hm m fun hturn => by simp [hturn, Mark.isFixed] at hk
    split
    case isTrue hk =>
      rw [if_pos hk] at ht
      exact ⟨hprogress k, by simp [ht, hq, NodeState.isDue], by simpa using hfixed⟩
    case isFalse hk =>
      rw [if_neg hk] at ht
      exact ⟨hprogress k, by simp [ht, hq, NodeState.isDue], by simpa using hfixed⟩
  · rw [hdone, hbad]
    exact Schedule.tracks_start ..
  · exact .start _ _ fun k => by
      by_cases hk : k ∈ region.graph.sources <;> simp [hk]
  · have hzero : ∀ k ∈ Finset.range region.ops.length, V'.count (.node k .queued) +
        (if k ∈ region.graph.sources then NodeState.due else .waiting).isAwaited.toNat = 0 :=
      fun k _ => by
        have : (if k ∈ region.graph.sources then NodeState.due
            else .waiting).isAwaited = false := by split <;> rfl
        simp [this, hother]
    rw [RunView.held, Finset.sum_eq_zero hzero]
    simp [hother]
  · have hlen := List.length_pos_iff.2 hne
    have : (Graph.build region.reduction region.footprints).size = region.ops.length := by
      simp [Region.length_footprints]
    simp [Schedule.isComplete, Schedule.start, Region.graph, this]
    omega

theorem clean_of_not_poisoned (h : V.Scheduled region st s holders fin)
    (hlt : j < region.ops.length) (hp : s.isPoisoned j = false) :
    ∀ i ∈ region.graph.predsOf j, (st i).isBad = false := by
  intro i hi
  by_contra hb
  have := (h.tracks.poisoned j (by rwa [Region.length_footprints])).2
    ⟨i, by rw [h.tracks.graph]; exact hi, by simpa using hb⟩
  simp [hp] at this

theorem isDone_of_reaches (h : V.Scheduled region st s holders fin) {i : Nat}
    (hw : (st j).isWaiting = false) (hij : region.graph.Reaches i j) : (st i).isDone := by
  induction hij with
  | edge he => exact ((h.follows.due _).1 hw).2 _ he
  | @tail k _ _ he ih =>
    refine ih ?_
    have := ((h.follows.due _).1 hw).2 _ he
    cases hx : st k <;> simp_all [NodeState.isDone, NodeState.isWaiting]

/-- Two nodes that conflict are never out together. -/
theorem not_conflicts (h : V.Scheduled region st s holders fin) {i : Nat} (hne : i ≠ j)
    (hi : (st i).isStill = false) (hj : (st j).isStill = false) :
    region.graph.conflicts i j = false := by
  have aux : ∀ a b, a < b → (st a).isStill = false → (st b).isStill = false →
      region.graph.conflicts a b = false := by
    intro a b hab ha hb
    by_contra hc
    have hdone := h.isDone_of_reaches (NodeState.isWaiting_eq_false_of_isStill hb)
      (Graph.reaches_build_of_conflicts hab (Bool.eq_true_of_not_eq_false hc))
    rw [NodeState.isDone_eq_false_of_isStill ha] at hdone
    cases hdone
  rcases Nat.lt_or_gt_of_ne hne with hij | hij
  · exact aux i j hij hi hj
  · rw [Region.graph, Graph.conflicts_build_comm]
    exact aux j i hij hj hi

theorem conflict?_eq_none (h : V.Scheduled region st s holders fin) (hj : st j = .due) :
    s.conflict? j = none := by
  unfold Schedule.conflict?
  split
  case isFalse => rfl
  case isTrue hv =>
    rw [List.find?_eq_none]
    intro i hi
    have hout := (h.records.running hv i).1 hi
    have hne : i ≠ j := fun hij => by simp [hij, hj, NodeState.isOut] at hout
    have hstill := NodeState.isStill_eq_false_of_isOut hout
    rw [h.tracks.graph, ← Region.graph]
    simp [h.not_conflicts hne hstill (by simp [hj, NodeState.isStill])]

theorem enter (h : V.Scheduled region st s holders fin) (hm : V.Moves V' [.node j .turn] [.node j .call])
    (hturn : 0 < V.marks j .turn) (hprogress : V'.progress = V.progress)
    (hp : s.isPoisoned j = false) (hrun : V'.run = some ⟨region, .scheduled (s.enter j) holders⟩) :
    V'.Scheduled region (Function.update st j .called) (s.enter j) holders none := by
  have hshown := h.shown j
  have hst : st j = .due := hshown.eq_due (by omega)
  have hj : (st j).isStill = false := by simp [hst, NodeState.isStill]
  obtain rfl := h.fin_eq_none hj
  rw [hst] at hshown
  have hmarks : ∀ m, V'.marks j m + [Sign.node j .turn].count (.node j m) =
    V.marks j m + [Sign.node j .call].count (.node j m) := fun m => hm.count _
  have hhold := hm.count .hold
  refine h.update hm (by simp) (fun k _ => congrFun hprogress k) hj rfl rfl
    (fun _ => h.clean_of_not_poisoned (h.lt_length hj) hp)
    (hshown.shift (hprogress ▸ hshown.progress) (fun m => hm.count _) (by simp [NodeState.isDue])
      fun _ => NodeState.weight_of_called j)
    (h.tracks.congr (by simp) (by simp) (by simp) (by simp)) (h.records.enter hst) hrun ?_
  have := hmarks .queued
  simp [hst, NodeState.isAwaited] at this hhold ⊢
  omega

/-- A poisoned node is passed over, and the thread goes on with what has become ready. -/
theorem skip (h : V.Scheduled region st s holders fin) (hturn : 0 < V.marks j .turn)
    (hprogress : V'.progress = V.progress) (hp : s.isPoisoned j = true)
    (hm : V.Moves V' [.node j .turn] ([.node j .skipped] ++
      completion (s.skip.complete j true).1 (s.skip.complete j true).2))
    (hrun : V'.run = some ⟨region, .scheduled (s.skip.complete j true).1 holders⟩) :
    ∃ st', V'.Scheduled region st' (s.skip.complete j true).1 holders
      (if (s.skip.complete j true).1.isComplete then some (s.skip.complete j true).1.outcome
        else none) := by
  have hshown := h.shown j
  have hst : st j = .due := hshown.eq_due (by omega)
  have hj : (st j).isStill = false := by simp [hst, NodeState.isStill]
  obtain rfl := h.fin_eq_none hj
  rw [hst] at hshown
  have hbad := (h.tracks.poisoned j (by rw [Region.length_footprints]; exact h.lt_length hj)).1 hp
  rw [h.tracks.graph] at hbad
  refine ⟨_, h.complete (x := .skipped) (t := s.skip) hj rfl (fun _ => hbad)
    (fun ht => by simp [NodeState.isTaken] at ht) rfl rfl rfl rfl rfl rfl rfl ?_ hm (by simp)
    (fun k _ => congrFun hprogress k) (fun m hmarks => ?_) hrun
    (by simp [hst, NodeState.isAwaited])⟩
  · intro hv k
    refine ⟨fun hk => ⟨hk, fun hkj => ?_⟩, And.left⟩
    have := (h.records.running hv k).1 hk
    simp [hkj, hst, NodeState.isOut] at this
  · exact hshown.shift (hprogress ▸ hshown.progress) hmarks (by simp [NodeState.isDue])
      fun _ => NodeState.weight_of_skipped j

/-- An operation that is out runs on without ending. -/
theorem proceed (h : V.Scheduled region st s holders fin) {out inn : List Sign} {x : NodeState}
    (hm : V.Moves V' out inn) (hlocal : ∀ y ∈ out ++ inn, ∃ m, y = .node j m)
    (hout : (st j).isOut) (hx : x.isOut)
    (hprogress : ∀ k, k ≠ j → V'.progress k = V.progress k) (hp : V'.progress j = x.progress?)
    (hdue : out.count (.node j .turn) = inn.count (.node j .turn) ∧
      out.count (.node j .queued) = inn.count (.node j .queued))
    (hfixed : ∀ k, k.isFixed →
      (st j).weight k + inn.count (.node j k) = x.weight k + out.count (.node j k))
    {holders' : Nat} (hrun : V'.run = some ⟨region, .scheduled s holders'⟩)
    (hheld : holders' + (st j).isAwaited.toNat = holders + x.isAwaited.toNat) :
    V'.Scheduled region (Function.update st j x) s holders' none := by
  have hj := NodeState.isStill_eq_false_of_isOut hout
  obtain rfl := h.fin_eq_none hj
  have hxs := NodeState.isStill_eq_false_of_isOut hx
  refine h.update hm (fun y hy => .inr (hlocal y hy)) hprogress hj
    (NodeState.isWaiting_eq_false_of_isStill hxs) (NodeState.isDone_eq_false_of_isStill hxs)
    (fun _ => h.follows.taken j (NodeState.isTaken_of_isOut hout))
    ((h.shown j).shift hp (fun m => hm.count _) ?_ hfixed)
    h.tracks (h.records.of_states ?_ ?_ ?_) hrun ?_
  · rw [NodeState.isDue_eq_false_of_isOut hout, NodeState.isDue_eq_false_of_isOut hx]
    omega
  · intro k
    by_cases hk : k = j
    · subst hk
      rw [Function.update_self, NodeState.isSkipped_eq_false_of_isOut hout,
        NodeState.isSkipped_eq_false_of_isOut hx]
    · simp [hk]
  · intro k e
    by_cases hk : k = j
    · subst hk
      simp [NodeState.ne_ended_of_isOut hout, NodeState.ne_ended_of_isOut hx]
    · simp [hk]
  · intro k
    by_cases hk : k = j
    · subst hk
      simp [hout, hx]
    · simp [hk]
  · have hhold := hm.count .hold
    have hq := hm.count (.node j .queued)
    have hnohold : Sign.hold ∉ out ++ inn := fun hmem => by
      obtain ⟨m, hm⟩ := hlocal _ hmem
      cases hm
    rw [List.count_eq_zero_of_not_mem fun hmem => hnohold (List.mem_append_left _ hmem),
      List.count_eq_zero_of_not_mem fun hmem => hnohold (List.mem_append_right _ hmem)] at hhold
    simp only [marks] at *
    omega

theorem launch (h : V.Scheduled region st s holders fin)
    (hm : V.Moves V' [.node j .call] [.node j .launched, .node j .returned])
    (hcall : 0 < V.marks j .call)
    (hprogress : ∀ k, V'.progress k = if k = j then some .entered else V.progress k)
    (hrun : V'.run = V.run) :
    V'.Scheduled region (Function.update st j (.running .entered)) s holders none := by
  have hst : st j = .called := (h.shown j).eq_called hcall
  have hout : (st j).isOut := by simp [hst, NodeState.isOut]
  obtain rfl := h.fin_eq_none (j := j) (by simp [hst, NodeState.isStill])
  refine h.proceed hm (by simp) hout rfl (fun k hk => by simp [hprogress, hk])
    (by simp [hprogress, NodeState.progress?]) (by simp)
    (fun _ => hst ▸ NodeState.weight_of_launched j) (hrun.trans h.run_eq)
    (by simp [hst, NodeState.isAwaited])

theorem settleEarly (h : V.Scheduled region st s holders fin) (hm : V.Moves V' [] [])
    (hentered : V.progress j = some .entered) {o : Outcome}
    (hprogress : ∀ k, V'.progress k = if k = j then some (.settled o) else V.progress k)
    (hrun : V'.run = V.run) :
    V'.Scheduled region (Function.update st j (.running (.settled o))) s holders none := by
  have hshown := h.shown j
  rw [hentered] at hshown
  have hst : st j = .running .entered := hshown.eq_running
  have hout : (st j).isOut := by simp [hst, NodeState.isOut]
  obtain rfl := h.fin_eq_none (j := j) (by simp [hst, NodeState.isStill])
  refine h.proceed hm (by simp) hout rfl (fun k hk => by simp [hprogress, hk])
    (by simp [hprogress, NodeState.progress?]) (by simp)
    (fun k _ => by rw [hst, NodeState.weight_of_settled]) (hrun.trans h.run_eq)
    (by simp [hst, NodeState.isAwaited])

theorem await (h : V.Scheduled region st s holders fin) (hm : V.Moves V' [.node j .returned] [])
    (hreturned : 0 < V.marks j .returned) (hunsettled : ∀ o, V.progress j ≠ some (.settled o))
    (hprogress : ∀ k, V'.progress k = if k = j then some .awaited else V.progress k)
    (hrun : V'.run = some ⟨region, .scheduled s (holders + 1)⟩) :
    V'.Scheduled region (Function.update st j (.running .awaited)) s (holders + 1) none := by
  have hst : st j = .running .entered := by
    rcases (h.shown j).eq_returning hreturned with hst | ⟨o, hst⟩
    · exact hst
    · exact absurd (by simpa [hst, NodeState.progress?] using (h.shown j).progress) (hunsettled o)
  have hout : (st j).isOut := by simp [hst, NodeState.isOut]
  refine h.proceed hm (by simp) hout rfl (fun k hk => by simp [hprogress, hk])
    (by simp [hprogress, NodeState.progress?]) (by simp)
    (fun _ => hst ▸ NodeState.weight_of_awaited j) hrun (by simp [hst, NodeState.isAwaited])

/-- An operation has ended, and its run goes on. -/
theorem finish (h : V.Scheduled region st s holders fin) {p : Progress} {o : Outcome}
    {out inn : List Sign} (hst : st j = .running p)
    (hlocal : ∀ y ∈ out ++ inn, y = .hold ∨ ∃ m, y = .node j m)
    (hp : V'.progress j = none) (hprogress : ∀ k, k ≠ j → V'.progress k = V.progress k)
    {t : Schedule} {ready : List Nat}
    (ht : t = ((s.noteEnd j (infoAt region j) o).complete j (NodeState.ended o).isBad).1)
    (hready : ready = ((s.noteEnd j (infoAt region j) o).complete j (NodeState.ended o).isBad).2)
    (hm : V.Moves V' out (inn ++ completion t ready))
    (hrun : V'.run = some ⟨region, .scheduled t holders⟩)
    (hdue : out.count (.node j .turn) = inn.count (.node j .turn) ∧
      out.count (.node j .queued) = inn.count (.node j .queued))
    (hfixed : ∀ k, k.isFixed → (NodeState.running p).weight k + inn.count (.node j k) =
      (NodeState.ended o).weight k + out.count (.node j k))
    (hheld : inn.count .hold = out.count .hold + (NodeState.running p).isAwaited.toNat) :
    ∃ st', V'.Scheduled region st' t holders (if t.isComplete then some t.outcome else none) := by
  have hj : (st j).isStill = false := by simp [hst, NodeState.isStill]
  obtain rfl := h.fin_eq_none hj
  subst ht hready
  have hnote := s.noteEnd_eq j (infoAt region j) o
  refine ⟨_, h.complete (x := .ended o) (t := s.noteEnd j (infoAt region j) o) hj rfl
    (fun hs => by simp [NodeState.isSkipped] at hs)
    (fun _ => h.follows.taken j (by simp [hst, NodeState.isTaken]))
    (by rw [hnote]; simp) (by rw [hnote]; simp) (by rw [hnote]; simp) (by rw [hnote]; simp)
    (by rw [hnote]; simp) (by rw [hnote]; simp [NodeState.isSkipped]) ?_ ?_ hm hlocal hprogress
    (fun m hmarks => (hst ▸ h.shown j).shift (by rw [hp]; rfl) hmarks
      (by simp [NodeState.isDue]; omega) hfixed) hrun (by rw [hst]; omega)⟩
  · cases o with
    | error e => exact Schedule.firstError_recordError_congr j _ (by simp)
    | ok => simp [Schedule.noteEnd, Records.errorAfter]
  · intro hv k
    rw [hnote]
    exact s.mem_running_leave j hv

/-- The turn of a node is handed over, or its task is lost. -/
theorem handOver (h : V.Scheduled region st s holders fin) {x : NodeState} {out inn : List Sign}
    (hst : st j = .due) (hx : x = .due ∨ x = .dropped) (hm : V.Moves V' out inn)
    (hlocal : ∀ y ∈ out ++ inn, y = .hold ∨ ∃ m, y = .node j m)
    (hdue : 1 + (inn.count (.node j .turn) + inn.count (.node j .queued)) =
      x.isDue.toNat + (out.count (.node j .turn) + out.count (.node j .queued)))
    (hfixed : ∀ k, k.isFixed → inn.count (.node j k) = x.weight k + out.count (.node j k))
    {holders' : Nat} (hprogress : V'.progress = V.progress)
    (hrun : V'.run = some ⟨region, .scheduled s holders'⟩)
    (hheld : holders' + (out.count .hold + out.count (.node j .queued)) =
      holders + (inn.count .hold + inn.count (.node j .queued))) :
    V'.Scheduled region (Function.update st j x) s holders' none := by
  have hj : (st j).isStill = false := by simp [hst, NodeState.isStill]
  obtain rfl := h.fin_eq_none hj
  have hshown := h.shown j
  rw [hst] at hshown
  have hsame : x.isWaiting = false ∧ x.isDone = false ∧ x.isTaken = false ∧ x.isSkipped = false ∧
      x.isOut = false ∧ x.isAwaited = false ∧ ∀ e, x ≠ .ended (.error e) := by
    rcases hx with rfl | rfl <;>
      simp [NodeState.isWaiting, NodeState.isDone, NodeState.isTaken, NodeState.isSkipped,
        NodeState.isOut, NodeState.isAwaited]
  obtain ⟨hwaiting, hdone, htaken, hskipped, hout, hawaited, herror⟩ := hsame
  refine h.update hm hlocal (fun k _ => congrFun hprogress k) hj hwaiting hdone
    (fun ht => by simp [htaken] at ht)
    (hshown.shift ?_ (fun m => hm.count _) (by simpa [NodeState.isDue] using hdue) ?_)
    h.tracks (h.records.of_states ?_ ?_ ?_) hrun ?_
  · rw [hprogress, hshown.progress]
    rcases hx with rfl | rfl <;> rfl
  · intro k hk
    rw [NodeState.weight_due, Nat.zero_add, hfixed k hk]
  · intro k
    by_cases hk : k = j
    · rw [hk, Function.update_self, hst, hskipped]
      rfl
    · simp [hk]
  · intro k e
    by_cases hk : k = j
    · subst hk; simp [hst, herror]
    · simp [hk]
  · intro k
    by_cases hk : k = j
    · rw [hk, Function.update_self, hst, hout]
      rfl
    · simp [hk]
  · have hhold := hm.count .hold
    have hqueued := hm.count (.node j .queued)
    have hnone : NodeState.due.isAwaited.toNat = 0 := rfl
    simp only [hst, hawaited, hnone, Bool.toNat_false, marks] at *
    omega

/-- What remains of a run when its nodes stay as they are. -/
theorem stay (h : V.Scheduled region st s holders fin) {out inn : List Sign} {holders' : Nat}
    (hm : V.Moves V' out inn) (hlocal : ∀ y ∈ out ++ inn, y = .hold)
    (hhold : 0 < V.count .hold) (hprogress : V'.progress = V.progress)
    (hlive : ∀ x, V.run = some x → V'.run = some ⟨region, .scheduled s holders'⟩ ∧
      holders' + out.count .hold = holders + inn.count .hold)
    (hdead : V.run = none → V'.run = none) :
    V'.Scheduled region st s holders' fin := by
  have hsame : ∀ y, y ≠ .hold → V'.count y = V.count y := fun y hy => hm.eq_of_not_mem
    (fun hmem => hy (hlocal y (List.mem_append_left _ hmem)))
    (fun hmem => hy (hlocal y (List.mem_append_right _ hmem)))
  have hcomplete : ∀ o, fin = some o → s.isComplete := fun o ho => by
    by_contra hc
    have := h.abandoned o ho (by simpa using hc)
    omega
  refine ⟨hm.regions.trans h.regions, hm.concurrent.trans h.concurrent, h.unordered,
    (hsame _ (by simp)).trans h.start, (hsame _ (by simp)).trans h.started, fun hr => ?_,
    fun o ho => hdead (h.dead o (hsame (.resolved o) (by simp) ▸ ho)), fun k => ?_, h.follows,
    h.tracks, h.records, fun hopen hsome => ?_, fun o => ?_, h.unfinished, h.still, h.outcome,
    fun o ho hc => ?_⟩
  · simp only [hsame _ (show Sign.resolved _ ≠ .hold by simp)] at hr
    exact (hlive _ (h.live hr)).1
  · exact (h.shown k).congr (congrFun hprogress k) fun m => hsame _ (by simp)
  · obtain ⟨x, hx⟩ : ∃ x, V.run = some x := by
      cases hv : V.run with
      | none => rw [hdead hv] at hsome; cases hsome
      | some x => exact ⟨x, rfl⟩
    have hold := h.held hopen (by simp [hx])
    have hcount := hm.count .hold
    have hmove := (hlive x hx).2
    have hsum : ∀ k, V'.count (.node k .queued) = V.count (.node k .queued) :=
      fun k => hsame _ (by simp)
    simp only [RunView.held, hsum] at *
    omega
  · rw [hsame _ (by simp), hsame _ (by simp)]
    exact h.closing o
  · rw [hcomplete o ho] at hc
    cases hc

/-- A run that nobody else holds, and of which no thread has anything left to do, is abandoned. -/
theorem abandon (h : V.Scheduled region st s holders none)
    (hm : V.Moves V' [.hold] [.closing (.error .promiseDropped)]) (hhold : 0 < V.count .hold)
    (hlast : holders ≤ 1) (hprogress : V'.progress = V.progress) (hrun : V'.run = V.run)
    (hturn : ∀ j, V.marks j .turn = 0) (hcall : ∀ j, V.marks j .call = 0)
    (hreturned : ∀ j, V.marks j .returned = 0) :
    V'.Scheduled region st s holders (some (.error .promiseDropped)) := by
  have hheld := h.held (.inl rfl) (by simp [h.run_eq])
  have hsum : ∑ k ∈ Finset.range region.ops.length,
      (V.count (.node k .queued) + (st k).isAwaited.toNat) = 0 := by
    rw [RunView.held] at hheld
    omega
  have hone : V.count .hold = 1 := by
    rw [RunView.held] at hheld
    omega
  have hstill : ∀ j, (st j).isStill := fun j => by
    by_contra hj
    have hzero := Finset.sum_eq_zero_iff.1 hsum j
      (Finset.mem_range.2 (h.lt_length (by simpa using hj)))
    have hdue := (h.shown j).due
    have ht := hturn j
    simp only [marks] at hdue ht
    refine hj (NodeState.isStill_of_quiet (by omega) ?_ ?_ (by omega))
    · rw [← (h.shown j).fixed .call rfl, hcall]
    · rw [← (h.shown j).fixed .returned rfl, hreturned]
  have hsame : ∀ y, y ≠ .hold → y ≠ .closing (.error .promiseDropped) → V'.count y = V.count y :=
    fun y h1 h2 => hm.eq_of_not_mem (by simpa using h1) (by simpa using h2)
  have hresolved : ∀ o, V'.count (.resolved o) = 0 := fun o => by
    rw [hsame _ (by simp) (by simp), h.resolved_eq_zero]
  have hopen := h.unfinished rfl
  refine ⟨hm.regions.trans h.regions, hm.concurrent.trans h.concurrent, h.unordered,
    (hsame _ (by simp) (by simp)).trans h.start, (hsame _ (by simp) (by simp)).trans h.started,
    fun _ => hrun.trans h.run_eq, fun o ho => by simp [hresolved] at ho, fun k => ?_, h.follows,
    h.tracks, h.records, fun hor => by simp [hopen] at hor, fun o => ?_, by simp,
    fun _ _ => hstill, fun o ho => ?_, fun _ _ _ => ?_⟩
  · exact (h.shown k).congr (congrFun hprogress k) fun m => hsame _ (by simp) (by simp)
  · have hold := h.closing o
    have hover := hm.count (.closing o)
    simp only [reduceCtorEq, if_false] at hold
    simp only [hresolved, List.count_cons, List.count_nil] at hover ⊢
    simp only [reduceCtorEq, beq_iff_eq, Sign.closing.injEq, Option.some.injEq] at *
    split <;> simp_all
  · simpa [hopen, eq_comm] using ho
  · have hcount := hm.count .hold
    simp at hcount
    omega

/-- The end that has been decided comes about. -/
theorem resolve (h : V.Scheduled region st s holders fin) {o : Outcome}
    (hm : V.Moves V' [.closing o] [.resolved o]) (hover : 0 < V.count (.closing o))
    (hprogress : V'.progress = V.progress) (hrun : V'.run = none) :
    fin = some o ∧ V'.Scheduled region st s holders fin := by
  obtain rfl := h.fin_eq_some (Nat.add_pos_left hover _)
  obtain ⟨hsame, hboth, hnow⟩ := hm.resolved
  refine ⟨rfl, hm.regions.trans h.regions, hm.concurrent.trans h.concurrent, h.unordered,
    (hsame _ (by simp) (by simp)).trans h.start, (hsame _ (by simp) (by simp)).trans h.started,
    fun hr => ?_, fun _ _ => hrun, fun k => ?_, h.follows, h.tracks, h.records, fun _ hsome => ?_,
    fun o' => (hboth o').trans (h.closing o'), h.unfinished, h.still, h.outcome, fun o' ho hc => ?_⟩
  · rw [hr o] at hnow
    cases hnow
  · exact (h.shown k).congr (congrFun hprogress k) fun m => hsame _ (by simp) (by simp)
  · rw [hrun] at hsome
    cases hsome
  · exact (hsame _ (by simp) (by simp)).trans (h.abandoned o' ho hc)

end Machine.RunView.Scheduled

end OpFlow
