import OpFlow.Proofs.Machine.ScheduledMoves

/-!
A run that takes its operations in order, and every other kind of run. At most one operation of an
ordered run has not ended; the run ends with its first failure or after its last operation. A run
that has not begun shows nothing, and an empty one ends as soon as it has begun.
-/
namespace OpFlow.Machine.RunView

variable {α : Type}

/-- A run that takes its operations in order, with the states of its operations. When it has been
decided how it ends, this is `fin`. -/
structure Ordered [Leaf α] (V : RunView α) (region : Program α) (st : Nat → NodeState)
    (fin : Option Outcome) : Prop where
  regions : V.regions = [region]
  nonempty : region.ops ≠ []
  ordered : V.concurrent = true → region.graph.isSequential = true
  start : V.count .start = 0
  started : V.count .started = 1
  hold : V.count .hold = 0
  live : (∀ o, V.count (.resolved o) = 0) → V.run = some ⟨region, .ordered⟩
  dead : ∀ o, 0 < V.count (.resolved o) → V.run = none
  shown : ∀ j, (st j).Shown (V.progress j) (V.marks j)
  follows : FollowsOrder region st
  closing : ∀ o, V.count (.closing o) + V.count (.resolved o) = if fin = some o then 1 else 0
  unfinished : fin = none → ∃ j, (st j).isStill = false
  still : ∀ o, fin = some o → ∀ j, (st j).isStill
  good : fin = some (.ok ()) → ∀ j < region.ops.length, (st j).endsWith (.ok ())
  bad : ∀ e, fin = some (.error e) →
    ∃ j e', st j = .ended (.error e') ∧ e = e'.attributedTo (infoAt region j)

def verdict (region : Program α) (j : Nat) : Outcome → Outcome
  | .error e => .error (e.attributedTo (infoAt region j))
  | .ok () => .ok ()

def sequel (region : Program α) (j : Nat) (o : Outcome) : List Sign :=
  if o = .ok () ∧ j + 1 < region.ops.length then [.node (j + 1) .call]
  else [.closing (verdict region j o)]

namespace Ordered

variable [Leaf α] {V V' : RunView α} {region : Program α} {st : Nat → NodeState}
  {fin : Option Outcome} {out inn : List Sign} {j : Nat} {x : NodeState} {o : Outcome}

theorem fin_eq_none (h : V.Ordered region st fin) (hj : (st j).isStill = false) : fin = none := by
  cases fin with
  | none => rfl
  | some o => simp [h.still o rfl j] at hj

theorem fin_eq_some (h : V.Ordered region st fin)
    (ho : 0 < V.count (.closing o) + V.count (.resolved o)) : fin = some o := by
  by_contra hne
  rw [h.closing o, if_neg hne] at ho
  cases ho

theorem resolved_eq_zero (h : V.Ordered region st none) (o : Outcome) :
    V.count (.resolved o) = 0 := by
  have := h.closing o
  simp only [reduceCtorEq, if_false] at this
  omega

theorem run_eq (h : V.Ordered region st none) : V.run = some ⟨region, .ordered⟩ :=
  h.live h.resolved_eq_zero

theorem isDue_eq_false (h : V.Ordered region st fin) (j : Nat) : (st j).isDue = false := by
  cases hw : (st j).isWaiting with
  | true => cases hx : st j <;> simp_all [NodeState.isWaiting, NodeState.isDue]
  | false =>
    have := h.follows.taken j hw
    cases hx : st j <;> simp_all [NodeState.isTaken, NodeState.isDue]

theorem marks_due (h : V.Ordered region st fin) (j : Nat) :
    V.marks j .turn = 0 ∧ V.marks j .queued = 0 := by
  have := (h.shown j).due
  rw [h.isDue_eq_false j] at this
  simp only [Bool.toNat_false] at this
  omega

theorem ofStart (hordered : V'.concurrent = true → region.graph.isSequential = true)
    (hne : region.ops ≠ []) (hregions : V'.regions = [region])
    (hrun : V'.run = some ⟨region, .ordered⟩) (hprogress : ∀ k, V'.progress k = none)
    (hcount : ∀ y, V'.count y = [Sign.started, .node 0 .call].count y) :
    V'.Ordered region (fun j => if j = 0 then .called else .waiting) none := by
  refine ⟨hregions, hne, hordered, by simp [hcount], by simp [hcount], by simp [hcount],
    fun _ => hrun, fun o ho => by simp [hcount] at ho, fun k => ?_, .start hne, by simp [hcount],
    fun _ => ⟨0, rfl⟩, by simp, by simp, by simp⟩
  have hm : ∀ m, V'.marks k m = [Sign.started, .node 0 .call].count (.node k m) :=
    fun m => hcount _
  by_cases hk : k = 0
  · subst hk
    refine ⟨hprogress 0, by simp [hm, NodeState.isDue], fun m _ => ?_⟩
    cases m <;> simp [hm]
  · have hk' : ¬ 0 = k := fun h => hk h.symm
    simp only [hk, if_false]
    refine ⟨hprogress k, by simp [hm, hk', NodeState.isDue], fun m _ => ?_⟩
    cases m <;> simp [hm, hk']

/-- An operation moves on without ending. -/
theorem proceed (h : V.Ordered region st fin) (hm : V.Moves V' out inn)
    (hlocal : ∀ y ∈ out ++ inn, ∃ m, y = .node j m) (hout : (st j).isOut) (hx : x.isOut)
    (hprogress : ∀ k, k ≠ j → V'.progress k = V.progress k) (hp : V'.progress j = x.progress?)
    (hdue : out.count (.node j .turn) = inn.count (.node j .turn) ∧
      out.count (.node j .queued) = inn.count (.node j .queued))
    (hfixed : ∀ k, k.isFixed →
      (st j).weight k + inn.count (.node j k) = x.weight k + out.count (.node j k))
    (hrun : V'.run = V.run) : V'.Ordered region (Function.update st j x) none := by
  have hj := NodeState.isStill_eq_false_of_isOut hout
  obtain rfl := h.fin_eq_none hj
  have hxs := NodeState.isStill_eq_false_of_isOut hx
  have hsame : ∀ y, (∀ m, y ≠ .node j m) → V'.count y = V.count y := fun y hy => hm.eq_of_not_mem
    (fun hmem => (hlocal y (List.mem_append_left _ hmem)).elim hy)
    (fun hmem => (hlocal y (List.mem_append_right _ hmem)).elim hy)
  have hresolved : ∀ o, V'.count (.resolved o) = 0 := fun o => by
    rw [hsame _ (by simp), h.resolved_eq_zero]
  refine ⟨hm.regions.trans h.regions, h.nonempty, fun hc => h.ordered (hm.concurrent ▸ hc),
    (hsame _ (by simp)).trans h.start, (hsame _ (by simp)).trans h.started,
    (hsame _ (by simp)).trans h.hold, fun _ => hrun.trans h.run_eq,
    fun o ho => by simp [hresolved] at ho, fun k => ?_, h.follows.update hj
      (NodeState.isTaken_of_isOut hx) (NodeState.isDone_eq_false_of_isStill hxs),
    fun o => ?_, fun _ => ⟨j, by simpa using hxs⟩, by simp, by simp, by simp⟩
  · by_cases hk : k = j
    · subst hk
      rw [Function.update_self]
      refine (h.shown k).shift hp (fun m => hm.count _) ?_ hfixed
      rw [h.isDue_eq_false, NodeState.isDue_eq_false_of_isOut hx]
      omega
    · rw [Function.update_of_ne hk]
      exact (h.shown k).congr (hprogress k hk) fun m => hsame _ (by simp [hk])
  · rw [hsame _ (by simp), hsame _ (by simp)]
    exact h.closing o

theorem launch (h : V.Ordered region st fin)
    (hm : V.Moves V' [.node j .call] [.node j .launched, .node j .returned])
    (hcall : 0 < V.marks j .call)
    (hprogress : ∀ k, V'.progress k = if k = j then some .entered else V.progress k)
    (hrun : V'.run = V.run) : V'.Ordered region (Function.update st j (.running .entered)) none := by
  have hst : st j = .called := (h.shown j).eq_called hcall
  exact h.proceed hm (by simp) (by simp [hst, NodeState.isOut]) rfl
    (fun k hk => by simp [hprogress, hk]) (by simp [hprogress, NodeState.progress?]) (by simp)
    (fun _ => hst ▸ NodeState.weight_of_launched j) hrun

theorem settleEarly (h : V.Ordered region st fin) (hm : V.Moves V' [] [])
    (hentered : V.progress j = some .entered)
    (hprogress : ∀ k, V'.progress k = if k = j then some (.settled o) else V.progress k)
    (hrun : V'.run = V.run) :
    V'.Ordered region (Function.update st j (.running (.settled o))) none := by
  have hshown := h.shown j
  rw [hentered] at hshown
  have hst : st j = .running .entered := hshown.eq_running
  exact h.proceed hm (by simp) (by simp [hst, NodeState.isOut]) rfl
    (fun k hk => by simp [hprogress, hk]) (by simp [hprogress, NodeState.progress?]) (by simp)
    (fun k _ => by rw [hst, NodeState.weight_of_settled]) hrun

theorem await (h : V.Ordered region st fin) (hm : V.Moves V' [.node j .returned] [])
    (hreturned : 0 < V.marks j .returned) (hunsettled : ∀ o, V.progress j ≠ some (.settled o))
    (hprogress : ∀ k, V'.progress k = if k = j then some .awaited else V.progress k)
    (hrun : V'.run = V.run) :
    V'.Ordered region (Function.update st j (.running .awaited)) none := by
  have hst : st j = .running .entered := by
    rcases (h.shown j).eq_returning hreturned with hst | ⟨o, hst⟩
    · exact hst
    · exact absurd (by simpa [hst, NodeState.progress?] using (h.shown j).progress) (hunsettled o)
  exact h.proceed hm (by simp) (by simp [hst, NodeState.isOut]) rfl
    (fun k hk => by simp [hprogress, hk]) (by simp [hprogress, NodeState.progress?]) (by simp)
    (fun _ => hst ▸ NodeState.weight_of_awaited j) hrun

section Finish

/-! An operation ends: besides its own marks, only what follows comes of it. -/

variable (hm : V.Moves V' out (inn ++ sequel region j o))
  (hlocal : ∀ y ∈ out ++ inn, ∃ m, y = .node j m)

omit [Leaf α]

include hm

theorem marks_finishing_self (m : Mark) :
    V'.marks j m + out.count (.node j m) = V.marks j m + inn.count (.node j m) := by
  have hnone : (sequel region j o).count (.node j m) = 0 := by
    unfold sequel
    split <;> simp
  have := hm.count (.node j m)
  rwa [List.count_append, hnone, Nat.add_zero] at this

include hlocal

theorem count_finishing {y : Sign} (hy : ∀ m, y ≠ .node j m) :
    V'.count y = V.count y + (sequel region j o).count y := by
  have hnot : y ∉ out ++ inn := fun hmem => (hlocal y hmem).elim hy
  rw [List.mem_append, not_or] at hnot
  have := hm.count y
  rwa [List.count_append, List.count_eq_zero_of_not_mem hnot.1,
    List.count_eq_zero_of_not_mem hnot.2, Nat.add_zero, Nat.zero_add] at this

theorem count_finishing_of_ne {y : Sign} (hnode : ∀ k m, y ≠ .node k m)
    (hclosing : ∀ o, y ≠ .closing o) : V'.count y = V.count y := by
  rw [count_finishing hm hlocal (hnode j), List.count_eq_zero_of_not_mem, Nat.add_zero]
  unfold sequel
  split <;> simp [hnode, hclosing]

theorem shown_finishing (hwait : ∀ k, j < k → st k = .waiting) {k : Nat} (hk : k ≠ j)
    (hold : (st k).Shown (V.progress k) (V.marks k)) (hprogress : V'.progress k = V.progress k) :
    (FollowsOrder.ended region st j o k).Shown (V'.progress k) (V'.marks k) := by
  by_cases hnext : k = j + 1 ∧ o = .ok () ∧ j + 1 < region.ops.length
  · obtain ⟨rfl, rfl, hlt⟩ := hnext
    have hcalled : FollowsOrder.ended region st j (.ok ()) (j + 1) = .called := by
      simp [FollowsOrder.ended, hlt]
    have hmove : ∀ m, V'.marks (j + 1) m + ([] : List Sign).count (.node (j + 1) m) =
        V.marks (j + 1) m + [Sign.node (j + 1) .call].count (.node (j + 1) m) := fun m => by
      have := count_finishing hm hlocal (y := .node (j + 1) m) (by simp)
      simpa [sequel, hlt, marks] using this
    rw [hwait (j + 1) (by omega)] at hold
    rw [hcalled]
    refine hold.shift ?_ hmove (by simp [NodeState.isDue]) (fun m hm => ?_)
    · rw [hprogress, hold.progress]
      rfl
    · cases m <;> simp_all [Mark.isFixed]
  · have hst : FollowsOrder.ended region st j o k = st k := by
      simp only [FollowsOrder.ended, hk, hnext, if_false]
    rw [hst]
    refine hold.congr hprogress fun m => ?_
    have hnone : Sign.node k m ∉ sequel region j o := by
      unfold sequel
      split
      case isTrue hc => simpa using fun hkj _ => hnext ⟨hkj, hc⟩
      case isFalse => simp
    have := count_finishing hm hlocal (y := .node k m) (by simp [hk])
    rwa [List.count_eq_zero_of_not_mem hnone, Nat.add_zero] at this

end Finish

omit [Leaf α] in
theorem isStill_ended (hwait : ∀ k, j < k → st k = .waiting)
    (hbefore : ∀ k, k < j → (st k).endsWith (.ok ()))
    (hlast : ¬ (o = .ok () ∧ j + 1 < region.ops.length)) (k : Nat) :
    (FollowsOrder.ended region st j o k).isStill := by
  simp only [FollowsOrder.ended, hlast, if_false, and_false]
  split
  case isTrue => rfl
  case isFalse hkj =>
    rcases Nat.lt_or_gt_of_ne hkj with hlt | hgt
    · have := hbefore k hlt
      cases hx : st k <;> simp_all [NodeState.endsWith, NodeState.isStill]
    · simp [hwait k hgt, NodeState.isStill]

/-- An operation has ended: the next one is called, or the run is over. -/
theorem finish (h : V.Ordered region st fin) {p : Progress} (hst : st j = .running p)
    (hlocal : ∀ y ∈ out ++ inn, ∃ m, y = .node j m) (hm : V.Moves V' out (inn ++ sequel region j o))
    (hp : V'.progress j = none) (hprogress : ∀ k, k ≠ j → V'.progress k = V.progress k)
    (hrun : V'.run = V.run)
    (hdue : out.count (.node j .turn) = inn.count (.node j .turn) ∧
      out.count (.node j .queued) = inn.count (.node j .queued))
    (hfixed : ∀ k, k.isFixed → (NodeState.running p).weight k + inn.count (.node j k) =
      (NodeState.ended o).weight k + out.count (.node j k)) :
    ∃ fin', V'.Ordered region (FollowsOrder.ended region st j o) fin' := by
  have hj : (st j).isStill = false := by simp [hst, NodeState.isStill]
  obtain rfl := h.fin_eq_none hj
  have hfollows := h.follows.complete hj o
  have hwait : ∀ k, j < k → st k = .waiting := fun k hk => by
    have := h.follows.isWaiting_of_lt hj hk
    cases hx : st k <;> simp_all [NodeState.isWaiting]
  have hbefore : ∀ k, k < j → (st k).endsWith (.ok ()) :=
    ((h.follows.due j).1 (NodeState.isWaiting_eq_false_of_isStill hj)).2
  have hkeep : ∀ y, (∀ k m, y ≠ .node k m) → (∀ o, y ≠ .closing o) → V'.count y = V.count y :=
    fun y => count_finishing_of_ne hm hlocal
  have hresolved : ∀ o, V'.count (.resolved o) = 0 := fun o => by
    rw [hkeep _ (by simp) (by simp), h.resolved_eq_zero]
  have hover : ∀ o', V'.count (.closing o') = (sequel region j o).count (.closing o') := fun o' => by
    have := h.closing o'
    rw [count_finishing hm hlocal (by simp)]
    simp only [reduceCtorEq, if_false] at this
    omega
  have hshown : ∀ k, (FollowsOrder.ended region st j o k).Shown (V'.progress k) (V'.marks k) := by
    intro k
    by_cases hk : k = j
    · subst hk
      have hended : FollowsOrder.ended region st k o k = .ended o := by simp [FollowsOrder.ended]
      rw [hended]
      exact (hst ▸ h.shown k).shift (by rw [hp]; rfl) (marks_finishing_self hm)
        (by simp [NodeState.isDue]; omega) hfixed
    · exact shown_finishing hm hlocal hwait hk (h.shown k) (hprogress k hk)
  have hregions := hm.regions.trans h.regions
  have hordered : V'.concurrent = true → region.graph.isSequential = true :=
    fun hc => h.ordered (hm.concurrent ▸ hc)
  have hstart := (hkeep .start (by simp) (by simp)).trans h.start
  have hstarted := (hkeep .started (by simp) (by simp)).trans h.started
  have hhold := (hkeep .hold (by simp) (by simp)).trans h.hold
  by_cases hnext : o = .ok () ∧ j + 1 < region.ops.length
  · refine ⟨none, hregions, h.nonempty, hordered, hstart, hstarted, hhold,
      fun _ => hrun.trans h.run_eq, fun o ho => by simp [hresolved] at ho, hshown, hfollows,
      fun o' => ?_, fun _ => ⟨j + 1, ?_⟩, by simp, by simp, by simp⟩
    · simp [hover, hresolved, sequel, hnext]
    · simp [FollowsOrder.ended, hnext, NodeState.isStill]
  · refine ⟨some (verdict region j o), hregions, h.nonempty, hordered, hstart, hstarted, hhold,
      fun _ => hrun.trans h.run_eq, fun o ho => by simp [hresolved] at ho, hshown, hfollows,
      fun o' => ?_, by simp, fun o' _ => isStill_ended hwait hbefore hnext, fun ho k hk => ?_,
      fun e he => ?_⟩
    · simp [hover, hresolved, sequel, hnext, List.count_cons]
    · cases o with
      | error e => simp [verdict] at ho
      | ok u =>
        have hlast : ¬ j + 1 < region.ops.length := fun hlt => hnext ⟨rfl, hlt⟩
        by_cases hkj : k = j
        · simp [FollowsOrder.ended, hkj, NodeState.endsWith]
        · simpa [FollowsOrder.ended, hkj, hlast] using hbefore k (by omega)
    · cases o with
      | ok u => simp [verdict] at he
      | error e' =>
        refine ⟨j, e', by simp [FollowsOrder.ended], ?_⟩
        simpa [verdict, eq_comm] using he

theorem resolve (h : V.Ordered region st fin) (hm : V.Moves V' [.closing o] [.resolved o])
    (hover : 0 < V.count (.closing o)) (hprogress : V'.progress = V.progress) (hrun : V'.run = none) :
    fin = some o ∧ V'.Ordered region st fin := by
  obtain rfl := h.fin_eq_some (Nat.add_pos_left hover _)
  obtain ⟨hsame, hboth, hnow⟩ := hm.resolved
  refine ⟨rfl, hm.regions.trans h.regions, h.nonempty, fun hc => h.ordered (hm.concurrent ▸ hc),
    (hsame _ (by simp) (by simp)).trans h.start, (hsame _ (by simp) (by simp)).trans h.started,
    (hsame _ (by simp) (by simp)).trans h.hold, fun hr => ?_, fun _ _ => hrun, fun k => ?_,
    h.follows, fun o' => (hboth o').trans (h.closing o'), h.unfinished, h.still, h.good, h.bad⟩
  · rw [hr o] at hnow
    cases hnow
  · exact (h.shown k).congr (congrFun hprogress k) fun m => hsame _ (by simp) (by simp)

end Ordered

end OpFlow.Machine.RunView
