import OpFlow.Proofs.Machine.Flight

/-!
Checking launches changes nothing. What is left of a crew when the checks are switched off, in all
programs and at any depth, takes the same moves, since no check ever finds a conflict.
-/
namespace OpFlow

namespace Assoc

variable {κ α β : Type} [DecidableEq κ]

def map (f : α → β) (m : Assoc κ α) : Assoc κ β := ⟨m.entries.map fun e => (e.1, f e.2)⟩

variable (f : α → β) (m : Assoc κ α) (k : κ)

theorem get?_map : (m.map f).get? k = (m.get? k).map f := by
  obtain ⟨es⟩ := m
  simp only [map, get?]
  induction es with
  | nil => rfl
  | cons e es ih =>
    simp only [List.map_cons, find, ih]
    split <;> rfl

theorem erase_map : (m.map f).erase k = (m.erase k).map f := by
  simp only [map, erase, List.filter_map]
  rfl

theorem set_map (a : α) : (m.map f).set k (f a) = (m.set k a).map f := by
  simp only [set, erase_map]
  rfl

end Assoc

namespace Operation

variable {α : Type}

mutual

/-- The operation with no checks inside it. -/
def unchecked : Operation α → Operation α
  | leaf info a => leaf info a
  | call info body => call info (uncheckedRegion body)
  | conditional info index type branches =>
    conditional info index type (uncheckedBranches branches)
  | loop info predicate condition body trips =>
    loop info predicate (uncheckedRegion condition) (uncheckedRegion body) trips

def uncheckedRegion : Program α → Program α
  | ⟨ops, reduction, _⟩ => ⟨uncheckedOps ops, reduction, false⟩

def uncheckedOps : List (Operation α) → List (Operation α)
  | [] => []
  | op :: ops => unchecked op :: uncheckedOps ops

def uncheckedBranches : List (Program α) → List (Program α)
  | [] => []
  | b :: bs => uncheckedRegion b :: uncheckedBranches bs

end

theorem uncheckedOps_eq_map (ops : List (Operation α)) : uncheckedOps ops = ops.map unchecked := by
  induction ops with
  | nil => rfl
  | cons op ops ih => rw [uncheckedOps, ih, List.map_cons]

theorem uncheckedBranches_eq_map (branches : List (Program α)) :
    uncheckedBranches branches = branches.map uncheckedRegion := by
  induction branches with
  | nil => rfl
  | cons b bs ih => rw [uncheckedBranches, ih, List.map_cons]

@[simp] theorem info_unchecked (op : Operation α) : op.unchecked.info = op.info := by
  cases op <;> simp [unchecked, info]

mutual

theorem footprint_unchecked [Leaf α] : ∀ op : Operation α, op.unchecked.footprint = op.footprint
  | leaf info a => by rw [unchecked]
  | call info body => by rw [unchecked, footprint, footprint, footprintOfRegion_unchecked body]
  | conditional info index type branches => by
    rw [unchecked, footprint, footprint, footprintOfBranches_unchecked branches]
  | loop info predicate condition body trips => by
    rw [unchecked, footprint, footprint, footprintOfRegion_unchecked condition,
      footprintOfRegion_unchecked body]

theorem footprintOfRegion_unchecked [Leaf α] :
    ∀ region : Program α, footprintOfRegion (uncheckedRegion region) = footprintOfRegion region
  | ⟨ops, _, _⟩ => by
    rw [uncheckedRegion, footprintOfRegion, footprintOfRegion, footprintOfOps_unchecked ops]

theorem footprintOfOps_unchecked [Leaf α] :
    ∀ ops : List (Operation α), footprintOfOps (uncheckedOps ops) = footprintOfOps ops
  | [] => by rw [uncheckedOps]
  | op :: ops => by
    rw [uncheckedOps, footprintOfOps, footprintOfOps, footprint_unchecked op,
      footprintOfOps_unchecked ops]

theorem footprintOfBranches_unchecked [Leaf α] : ∀ branches : List (Program α),
    footprintOfBranches (uncheckedBranches branches) = footprintOfBranches branches
  | [] => by rw [uncheckedBranches]
  | b :: bs => by
    rw [uncheckedBranches, footprintOfBranches, footprintOfBranches, footprintOfRegion_unchecked b,
      footprintOfBranches_unchecked bs]

end

end Operation

namespace Region

variable {α : Type}

def unchecked (region : Program α) : Program α := Operation.uncheckedRegion region

@[simp] theorem ops_unchecked (region : Program α) :
    (unchecked region).ops = region.ops.map Operation.unchecked := by
  obtain ⟨ops, reduction, verify⟩ := region
  rw [unchecked, Operation.uncheckedRegion, Operation.uncheckedOps_eq_map]

@[simp] theorem verify_unchecked (region : Program α) : (unchecked region).verify = false := by
  obtain ⟨ops, reduction, verify⟩ := region
  rw [unchecked, Operation.uncheckedRegion]

@[simp] theorem graph_unchecked [Leaf α] (region : Program α) :
    (unchecked region).graph = region.graph := by
  have hreduction : (unchecked region).reduction = region.reduction := by
    obtain ⟨ops, reduction, verify⟩ := region
    rw [unchecked, Operation.uncheckedRegion]
  have hfootprints : (unchecked region).footprints = region.footprints := by
    simp [footprints, Operation.footprint_unchecked]
  rw [graph, graph, hreduction, hfootprints]

end Region

namespace Schedule

def unchecked (s : Schedule) : Schedule := { s with verify := false, running := [] }

variable (s : Schedule) (node : Nat)

@[simp] theorem isComplete_unchecked : s.unchecked.isComplete = s.isComplete := rfl

@[simp] theorem outcome_unchecked : s.unchecked.outcome = s.outcome := rfl

@[simp] theorem conflict?_unchecked : s.unchecked.conflict? node = none := rfl

theorem enter_unchecked : (s.enter node).unchecked = s.unchecked.enter node := by
  unfold enter
  split <;> rfl

theorem leave_unchecked : (s.leave node).unchecked = s.unchecked.leave node := by
  unfold leave
  split <;> rfl

theorem recordError_unchecked (e : Error) :
    (s.recordError node e).unchecked = s.unchecked.recordError node e := by
  simp only [recordError, unchecked]
  split
  · split <;> rfl
  · rfl

theorem releaseAll_unchecked (poison : Bool) (nodes : List Nat) :
    s.unchecked.releaseAll poison nodes =
      ((s.releaseAll poison nodes).1.unchecked, (s.releaseAll poison nodes).2) := by
  induction nodes generalizing s with
  | nil => rfl
  | cons n nodes ih =>
    have hrelease : s.unchecked.release n poison =
        ((s.release n poison).1.unchecked, (s.release n poison).2) := rfl
    simp only [releaseAll, hrelease, ih]

theorem complete_unchecked (failed : Bool) : s.unchecked.complete node failed =
    ((s.complete node failed).1.unchecked, (s.complete node failed).2) := by
  have hsuccs : s.unchecked.graph.succsOf node = s.graph.succsOf node := rfl
  simp only [complete, hsuccs, releaseAll_unchecked]
  rfl

end Schedule

namespace Machine

variable {α σ ι : Type}

def RunMode.unchecked : RunMode → RunMode
  | ordered => ordered
  | scheduled s holders => scheduled s.unchecked holders

def Run.unchecked (x : Run α) : Run α := ⟨Region.unchecked x.region, x.mode.unchecked⟩

def Execution.unchecked (x : Execution α) : Execution α := { x with runs := x.runs.map Run.unchecked }

def Host.unchecked (h : Host α) : Host α :=
  { h with
    program := Region.unchecked h.program
    executions := h.executions.map Execution.unchecked }

def Item.unchecked : Item α ι → Item α ι
  | .start r region => .start r (Region.unchecked region)
  | item => item

namespace World

def unchecked (w : World α σ ι) : World α σ ι :=
  { w with
    hosts := w.hosts.map Host.unchecked
    agenda := w.agenda.map Item.unchecked }

variable (w : World α σ ι) (r : RunKey) (c : CallKey)

@[simp] theorem device_unchecked : w.unchecked.device = w.device := rfl

@[simp] theorem runners_unchecked : w.unchecked.runners = w.runners := rfl

@[simp] theorem offer_unchecked (k : Nat) (t : Task ι) : w.unchecked.offer k t = w.offer k t := rfl

@[simp] theorem execution?_unchecked (h e : Nat) :
    w.unchecked.execution? h e = (w.execution? h e).map Execution.unchecked := by
  simp only [execution?, unchecked, Array.getElem?_map]
  cases w.hosts[h]? with
  | none => rfl
  | some x => simp [Host.unchecked]

@[simp] theorem run?_unchecked : w.unchecked.run? r = (w.run? r).map Run.unchecked := by
  simp only [run?, execution?_unchecked]
  cases w.execution? r.host r.execution with
  | none => rfl
  | some x => exact Assoc.get?_map _ _ _

@[simp] theorem call?_unchecked : w.unchecked.call? c = w.call? c := by
  simp only [call?, execution?_unchecked]
  cases w.execution? c.run.host c.run.execution <;> rfl

@[simp] theorem operation?_unchecked :
    w.unchecked.operation? c = (w.operation? c).map Operation.unchecked := by
  simp only [operation?, run?_unchecked]
  cases w.run? c.run with
  | none => rfl
  | some x => simp [Run.unchecked]

@[simp] theorem infoOf_unchecked : w.unchecked.infoOf c = w.infoOf c := by
  simp only [infoOf, operation?_unchecked]
  cases w.operation? c <;> simp

@[simp] theorem runnerOf?_unchecked (h : Nat) : w.unchecked.runnerOf? h = w.runnerOf? h := by
  simp only [runnerOf?, unchecked, Array.getElem?_map]
  cases w.hosts[h]? <;> rfl

@[simp] theorem outcome?_unchecked (h e : Nat) : w.unchecked.outcome? h e = w.outcome? h e := by
  simp only [outcome?, execution?_unchecked]
  cases w.execution? h e <;> rfl

theorem push_unchecked (items : List (Item α ι)) :
    (w.push items).unchecked = w.unchecked.push (items.map Item.unchecked) := by
  simp [push, unchecked]

theorem modifyHost_unchecked {k : Nat} {f g : Host α → Host α}
    (hf : ∀ h, (f h).unchecked = g h.unchecked) :
    (w.modifyHost k f).unchecked = w.unchecked.modifyHost k g := by
  have hhosts : (w.hosts.modify k f).map Host.unchecked = (w.hosts.map Host.unchecked).modify k g := by
    apply Array.ext_getElem?
    intro i
    simp only [Array.getElem?_map, Array.getElem?_modify]
    split
    · cases w.hosts[i]? <;> simp [hf]
    · rfl
  simp only [modifyHost, unchecked, hhosts]

theorem modifyExecution_unchecked {f g : Execution α → Execution α}
    (hf : ∀ x, (f x).unchecked = g x.unchecked) :
    (w.modifyExecution r f).unchecked = w.unchecked.modifyExecution r g := by
  refine w.modifyHost_unchecked fun h => ?_
  have hexecutions : (h.executions.modify r.execution f).map Execution.unchecked =
      (h.executions.map Execution.unchecked).modify r.execution g := by
    apply Array.ext_getElem?
    intro i
    simp only [Array.getElem?_map, Array.getElem?_modify]
    split
    · cases h.executions[i]? <;> simp [hf]
    · rfl
  simp only [Host.unchecked, hexecutions]

theorem setRun_unchecked (x : Run α) :
    (w.setRun r x).unchecked = w.unchecked.setRun r x.unchecked :=
  w.modifyExecution_unchecked r fun y => by
    simp only [Execution.unchecked, Assoc.set_map]

theorem eraseRun_unchecked : (w.eraseRun r).unchecked = w.unchecked.eraseRun r :=
  w.modifyExecution_unchecked r fun y => by
    simp only [Execution.unchecked, Assoc.erase_map]

theorem setCall_unchecked (y : Call) : (w.setCall c y).unchecked = w.unchecked.setCall c y :=
  w.modifyExecution_unchecked c.run fun _ => rfl

theorem eraseCall_unchecked : (w.eraseCall c).unchecked = w.unchecked.eraseCall c :=
  w.modifyExecution_unchecked c.run fun _ => rfl

theorem count_unchecked (f : Stats → Stats) : (w.count r f).unchecked = w.unchecked.count r f := by
  unfold count
  split
  · exact w.modifyHost_unchecked fun _ => rfl
  · rfl

theorem setRunner_unchecked (k : Nat) (q : Runner (Task ι)) :
    (w.setRunner k q).unchecked = w.unchecked.setRunner k q := rfl

theorem map_effect_unchecked (effects : List (Effect ι)) :
    (effects.map Item.effect).map Item.unchecked = (effects.map Item.effect : List (Item α ι)) := by
  simp [Item.unchecked]

/-! ### Steps -/

theorem hold_unchecked : (w.hold r).unchecked = w.unchecked.hold r := by
  simp only [hold, run?_unchecked]
  cases w.run? r with
  | none => rfl
  | some x =>
    obtain ⟨region, mode⟩ := x
    cases mode with
    | ordered => rfl
    | scheduled s holders => exact setRun_unchecked w r _

theorem release_unchecked : (w.release r).unchecked = w.unchecked.release r := by
  simp only [release, run?_unchecked]
  cases w.run? r with
  | none => rfl
  | some x =>
    obtain ⟨region, mode⟩ := x
    cases mode with
    | ordered => rfl
    | scheduled s holders =>
      simp only [Option.map_some, Run.unchecked, RunMode.unchecked]
      split
      · exact push_unchecked w _
      · exact setRun_unchecked w r _

theorem completeNode_unchecked (region : Program α) (s : Schedule) (holders node : Nat)
    (failed atOnce : Bool) :
    (w.completeNode r region s holders node failed atOnce).unchecked =
      w.unchecked.completeNode r (Region.unchecked region) s.unchecked holders node failed
        atOnce := by
  simp only [completeNode, Schedule.complete_unchecked]
  rcases s.complete node failed with ⟨t, ready⟩
  have hsubmits : ∀ nodes : List Nat, (nodes.map (Item.submit r)).map Item.unchecked =
      (nodes.map (Item.submit r) : List (Item α ι)) := fun nodes => by simp [Item.unchecked]
  have hrun : (w.setRun r ⟨region, .scheduled t holders⟩).unchecked =
      w.unchecked.setRun r ⟨Region.unchecked region, .scheduled t.unchecked holders⟩ :=
    setRun_unchecked w r _
  cases hc : t.isComplete <;> cases atOnce <;> cases ready <;>
    simp only [Schedule.isComplete_unchecked, Schedule.outcome_unchecked, hc, Bool.false_eq_true,
      if_true, if_false, push_unchecked, count_unchecked, hrun, List.map_append, List.map_cons,
      List.map_nil, hsubmits] <;> rfl

theorem finish_unchecked (o : Outcome) (atOnce : Bool) :
    (w.finish c o atOnce).unchecked = w.unchecked.finish c o atOnce := by
  have hrun : (w.unchecked.eraseCall c).run? c.run =
      ((w.eraseCall c).run? c.run).map Run.unchecked := by
    rw [← eraseCall_unchecked, run?_unchecked]
  simp only [finish, infoOf_unchecked, hrun]
  cases (w.eraseCall c).run? c.run with
  | none => exact eraseCall_unchecked w c
  | some x =>
    obtain ⟨region, mode⟩ := x
    cases mode with
    | ordered =>
      simp only [Option.map_some, Run.unchecked, RunMode.unchecked, Region.ops_unchecked,
        List.length_map]
      cases o with
      | error e => simp only [push_unchecked, count_unchecked, eraseCall_unchecked]; rfl
      | ok u =>
        simp only
        split <;> simp only [push_unchecked, eraseCall_unchecked] <;> rfl
    | scheduled s holders =>
      simp only [Option.map_some, Run.unchecked, RunMode.unchecked]
      cases o with
      | error e =>
        simp only [completeNode_unchecked, count_unchecked, eraseCall_unchecked,
          Schedule.recordError_unchecked, Schedule.leave_unchecked]
      | ok u =>
        simp only [completeNode_unchecked, eraseCall_unchecked, Schedule.leave_unchecked]

/-- The one step that checks anything. -/
theorem visit_unchecked {node : Nat} (h : ∀ region s holders,
    w.run? r = some ⟨region, .scheduled s holders⟩ → s.conflict? node = none) :
    (w.visit r node).unchecked = w.unchecked.visit r node := by
  simp only [visit, run?_unchecked]
  cases hrun : w.run? r with
  | none => rfl
  | some x =>
    obtain ⟨region, mode⟩ := x
    cases mode with
    | ordered => rfl
    | scheduled s holders =>
      simp only [Option.map_some, Run.unchecked, RunMode.unchecked]
      by_cases hp : s.isPoisoned node = true
      · have hp' : s.unchecked.isPoisoned node = true := hp
        rw [if_pos hp, if_pos hp']
        exact completeNode_unchecked w r region s.skip holders node true true
      · have hp' : ¬ s.unchecked.isPoisoned node = true := hp
        rw [if_neg hp, if_neg hp']
        simp only [h region s holders hrun, Schedule.conflict?_unchecked, push_unchecked,
          setRun_unchecked]
        rw [Run.unchecked, RunMode.unchecked, Schedule.enter_unchecked]
        rfl

theorem submit_unchecked (node : Nat) : (w.submit r node).unchecked = w.unchecked.submit r node := by
  have hrunner : (w.hold r).runnerOf? = (w.unchecked.hold r).runnerOf? := by
    rw [← hold_unchecked]
    funext h
    exact ((w.hold r).runnerOf?_unchecked h).symm
  have hrunners : (w.hold r).runners = (w.unchecked.hold r).runners := by
    rw [← hold_unchecked]
    rfl
  have hoffer : (w.hold r).offer = (w.unchecked.hold r).offer := by
    rw [← hold_unchecked]
    rfl
  simp only [submit, hrunner, hrunners, hoffer]
  split <;> simp only [push_unchecked, setRunner_unchecked, hold_unchecked] <;> rfl

theorem start_unchecked [Leaf α] (region : Program α) :
    (w.start r region).unchecked = w.unchecked.start r (Region.unchecked region) := by
  have hsubmits : ∀ nodes : List Nat,
      (nodes.map (Item.submit r) ++ [Item.release r]).map Item.unchecked =
        (nodes.map (Item.submit r) ++ [Item.release r] : List (Item α ι)) :=
    fun nodes => by simp [Item.unchecked]
  by_cases hempty : region.ops.isEmpty = true
  · have hempty' : (Region.unchecked region).ops.isEmpty = true := by simpa using hempty
    rw [start, start, if_pos hempty, if_pos hempty']
    exact push_unchecked w _
  · have hempty' : ¬ (Region.unchecked region).ops.isEmpty = true := by simpa using hempty
    rw [start, start, if_neg hempty, if_neg hempty']
    simp only [Region.graph_unchecked, runnerOf?_unchecked, Region.verify_unchecked]
    split
    · simp only [push_unchecked, setRun_unchecked, count_unchecked, hsubmits]
      rfl
    · simp only [push_unchecked, setRun_unchecked, count_unchecked]
      rfl

theorem settle_unchecked (o : Outcome) : (w.settle c o).unchecked = w.unchecked.settle c o := by
  simp only [settle, call?_unchecked]
  split
  · exact setCall_unchecked w c _
  · exact finish_unchecked w c o false
  · rfl
  · rfl

theorem returned_unchecked : (w.returned c).unchecked = w.unchecked.returned c := by
  simp only [returned, call?_unchecked]
  split
  · exact finish_unchecked w c _ true
  · rw [setCall_unchecked, hold_unchecked]
  · rfl

variable (b : Backend α σ ι)

theorem noteCall_unchecked (op : Operation α) :
    (w.noteCall c op).unchecked = w.unchecked.noteCall c op.unchecked := by
  simp only [noteCall, Operation.info_unchecked]
  rw [← count_unchecked]
  rfl

theorem call_unchecked : (w.call b c).unchecked = w.unchecked.call b c := by
  cases hop : w.operation? c with
  | none => simp only [World.call, operation?_unchecked, hop, Option.map_none]
  | some op =>
    have hpush : ∀ (y : Call) (d : σ) (items : List (Item α ι)),
        (({ (w.noteCall c op).setCall c y with device := d } : World α σ ι).push items).unchecked =
          ({ (w.unchecked.noteCall c op.unchecked).setCall c y with device := d } : World α σ ι).push
            (items.map Item.unchecked) := fun y d items => by
      rw [push_unchecked, ← noteCall_unchecked, ← setCall_unchecked]
      rfl
    have hop' : w.unchecked.operation? c = some op.unchecked := by simp [hop]
    cases op with
    | leaf info a =>
      rcases hlaunch : b.launch c info a w.device with ⟨device, text | effects⟩
      · simp only [World.call, hop, hop', Operation.unchecked, device_setCall, device_count,
          device_unchecked, hlaunch]
        exact hpush {} device _
      · simp only [World.call, hop, hop', Operation.unchecked, device_setCall, device_count,
          device_unchecked, hlaunch]
        refine (hpush {} device _).trans ?_
        rw [List.map_append, map_effect_unchecked]
        rfl
    | call info body =>
      simp only [World.call, hop, hop', Operation.unchecked, device_count, device_unchecked]
      exact hpush {} w.device _
    | conditional info index type branches =>
      have hbranch : ∀ i, (Operation.uncheckedBranches branches)[i]? =
          branches[i]?.map Region.unchecked := fun i => by
        rw [Operation.uncheckedBranches_eq_map, List.getElem?_map]
        rfl
      have hlength : (Operation.uncheckedBranches branches).length = branches.length := by
        rw [Operation.uncheckedBranches_eq_map, List.length_map]
      cases hread : b.read c.run.host index w.device with
      | error e =>
        simp only [World.call, hop, hop', Operation.unchecked, device_setCall, device_count,
          device_unchecked, hread]
        exact hpush {} _ _
      | ok bytes =>
        simp only [World.call, hop, hop', Operation.unchecked, device_setCall, device_count,
          device_unchecked, hread, hlength, hbranch]
        cases branches[type.choose branches.length bytes]? with
        | none => exact hpush {} _ _
        | some branch => exact hpush {} _ _
    | loop info predicate condition body trips =>
      simp only [World.call, hop, hop', Operation.unchecked, device_count, device_unchecked]
      exact hpush { loop := some {} } w.device _

theorem iterate_unchecked : (w.iterate c).unchecked = w.unchecked.iterate c := by
  simp only [iterate, operation?_unchecked, call?_unchecked]
  cases w.operation? c with
  | none => rfl
  | some op =>
    cases op with
    | loop info predicate condition body trips =>
      simp only [Option.map_some, Operation.unchecked]
      cases w.call? c with
      | none => rfl
      | some y =>
        obtain ⟨p, l⟩ := y
        cases l with
        | none => rfl
        | some l =>
          simp only
          split
          · exact push_unchecked w _
          · simp only [push_unchecked, setCall_unchecked]
            split <;> rfl
    | _ => rfl

theorem advance_unchecked (call : Call) (l : LoopState) (o : Outcome) :
    (w.advance b c call l o).unchecked = w.unchecked.advance b c call l o := by
  cases o with
  | error e => exact push_unchecked w _
  | ok u =>
    simp only [advance, operation?_unchecked]
    split
    · simp only [push_unchecked, setCall_unchecked]
      rfl
    · cases w.operation? c with
      | none => rfl
      | some op =>
        cases op with
        | loop info predicate condition body trips =>
          simp only [Option.map_some, Operation.unchecked, device_unchecked]
          split
          · exact push_unchecked w _
          · split
            · simp only [push_unchecked, setCall_unchecked]
              rfl
            · exact push_unchecked w _
        | _ => rfl

theorem iterated_unchecked : (w.iterated b c).unchecked = w.unchecked.iterated b c := by
  simp only [iterated, call?_unchecked]
  split
  · split
    · exact advance_unchecked w c b _ _ _
    · exact setCall_unchecked w c _
    · exact setCall_unchecked w c _
  · rfl

theorem settleRun_unchecked (o : Outcome) :
    (w.settleRun b r o).unchecked = w.unchecked.settleRun b r o := by
  simp only [settleRun]
  rw [← eraseRun_unchecked]
  cases r.caller? with
  | none => exact (w.eraseRun r).modifyExecution_unchecked r fun _ => rfl
  | some c =>
    simp only [call?_unchecked]
    split
    · exact push_unchecked _ _
    · split
      · exact setCall_unchecked _ _ _
      · exact advance_unchecked _ _ _ _ _ _
      · rfl
    · rfl

theorem carryOut_unchecked (e : Effect ι) :
    (w.carryOut b e).unchecked = w.unchecked.carryOut b e := by
  cases e with
  | settle c o => exact settle_unchecked w c o
  | work x =>
    simp only [carryOut, push_unchecked, map_effect_unchecked]
    rfl
  | submit k x =>
    simp only [carryOut, offer_unchecked]
    split
    · exact push_unchecked w _
    · rfl
    · simp only [push_unchecked, map_effect_unchecked]
      rfl

/-- A step of a world in which no check would find a conflict. -/
theorem step?_unchecked [Leaf α] (h : ∀ r node rest region s holders,
    w.agenda = .visit r node :: rest → w.run? r = some ⟨region, .scheduled s holders⟩ →
      s.conflict? node = none) :
    w.unchecked.step? b = (w.step? b).map unchecked := by
  have hagenda : w.unchecked.agenda = w.agenda.map Item.unchecked := rfl
  cases hw : w.agenda with
  | nil => rw [step?, step?, hagenda, hw]; rfl
  | cons item agenda =>
    have hworld : ({ w with agenda } : World α σ ι).unchecked =
        { w.unchecked with agenda := agenda.map Item.unchecked } := rfl
    simp only [step?, hagenda, hw, List.map_cons, Option.map_some, ← hworld]
    cases item with
    | start r region => exact congrArg some (start_unchecked { w with agenda } r region).symm
    | visit r node =>
      exact congrArg some (visit_unchecked { w with agenda } r fun region s holders hrun =>
        h r node agenda region s holders hw hrun).symm
    | submit r node => exact congrArg some (submit_unchecked _ r node).symm
    | release r => exact congrArg some (release_unchecked _ r).symm
    | call c => exact congrArg some (call_unchecked _ c b).symm
    | returned c => exact congrArg some (returned_unchecked _ c).symm
    | settle c o => exact congrArg some (settle_unchecked _ c o).symm
    | settleRun r o => exact congrArg some (settleRun_unchecked _ r b o).symm
    | iterate c => exact congrArg some (iterate_unchecked _ c).symm
    | iterated c => exact congrArg some (iterated_unchecked _ c b).symm
    | effect e => exact congrArg some (carryOut_unchecked _ b e).symm

end World

namespace Crew

/-- The crew with no checks in any program and any run. -/
def unchecked (s : Crew α σ ι) : Crew α σ ι where
  world := s.world.unchecked
  threads := s.threads.map fun items => items.map Item.unchecked
  log := s.log
  begun := s.begun.map fun (r, region) => (r, Region.unchecked region)

/-- A crew that these choices, one after the other, lead to from `s₀`. -/
inductive Follows [Leaf α] (b : Backend α σ ι) (s₀ : Crew α σ ι) :
    List (Choice σ ι) → Crew α σ ι → Prop
  | nil : Follows b s₀ [] s₀
  | snoc {cs : List (Choice σ ι)} {c : Choice σ ι} {s t : Crew α σ ι} (h : Follows b s₀ cs s)
      (hm : Move b c s t) : Follows b s₀ (cs ++ [c]) t

variable [Leaf α] {b : Backend α σ ι} {s t t' : Crew α σ ι} {ch : Choice σ ι}

theorem Follows.reachable {w : World α σ ι} {cs : List (Choice σ ι)} (hw : w.IsFresh)
    (h : Follows b { world := w } cs s) : Reachable b s := by
  induction h with
  | nil => exact .fresh hw
  | snoc _ hm ih => exact ih.move hm

/-- Something leads from one crew to another. -/
def Leads (b : Backend α σ ι) (s₀ s : Crew α σ ι) : Prop := ∃ cs, Follows b s₀ cs s

theorem Leads.move {s₀ t : Crew α σ ι} {ch : Choice σ ι} (h : Leads b s₀ s) (hm : Move b ch s t) :
    Leads b s₀ t :=
  let ⟨_, hf⟩ := h
  ⟨_, hf.snoc hm⟩

theorem Follows.acts {s₀ : Crew α σ ι} {cs : List (Choice σ ι)} (h : Follows b s₀ cs s)
    (k n : Nat) : ∃ cs', Follows b s₀ (cs ++ cs') ((Crew.act b k)^[n] s) ∧
      ∀ ch ∈ cs', ch = .act k := by
  induction n generalizing s cs with
  | zero => exact ⟨[], by simpa using h, by simp⟩
  | succ n ih =>
    rw [Function.iterate_succ_apply]
    rcases Crew.act_cases b s k with heq | hm
    · rw [heq]
      exact ih h
    · obtain ⟨cs', hf, hcs⟩ := ih (h.snoc hm)
      exact ⟨.act k :: cs', List.append_cons .. ▸ hf, by simpa using hcs⟩

theorem exists_follows_acts {w : World α σ ι} {k : Nat} {h : Host α} (hk : w.hosts[k]? = some h)
    (i n : Nat) : ∃ cs, Follows b { world := w } cs
      ((Crew.act b i)^[n] (({ world := w } : Crew α σ ι).execute k)) ∧
        ∀ ch ∈ cs, ∀ change, ch ≠ .outside change := by
  have hexecute : Follows b { world := w } ([] ++ [.execute k])
      (({ world := w } : Crew α σ ι).execute k) := by
    rw [Crew.execute, hk]
    exact .snoc .nil (.execute hk)
  obtain ⟨cs, hf, hcs⟩ := hexecute.acts i n
  refine ⟨_, hf, fun ch hch change heq => ?_⟩
  rcases List.mem_append.1 hch with hch | hch
  · cases (List.mem_singleton.1 hch).symm.trans heq
  · cases (hcs ch hch).symm.trans heq

theorem Leads.acts {s₀ : Crew α σ ι} (h : Leads b s₀ s) (k n : Nat) :
    Leads b s₀ ((Crew.act b k)^[n] s) :=
  let ⟨_, hf⟩ := h
  let ⟨_, hf, _⟩ := hf.acts k n
  ⟨_, hf⟩

theorem Leads.reachable {s₀ : Crew α σ ι} (h : Leads b s₀ s) (h₀ : Reachable b s₀) :
    Reachable b s := by
  obtain ⟨cs, hf⟩ := h
  induction hf with
  | nil => exact h₀
  | snoc _ hm ih => exact ih.move hm

theorem Move.eq (h : Move b ch s t) (h' : Move b ch s t') : t' = t := by
  cases h with
  | act hi hw =>
    cases h' with
    | act hi' hw' =>
      obtain ⟨rfl, rfl⟩ := List.cons.inj (Option.some.inj (hi.symm.trans hi'))
      rw [Option.some.inj (hw.symm.trans hw')]
  | take => cases h'; rfl
  | drop => cases h'; rfl
  | outside => cases h'; rfl
  | execute hk =>
    cases h' with
    | execute hk' => rw [Option.some.inj (hk.symm.trans hk')]

omit [Leaf α] in
theorem spawn_unchecked (s : Crew α σ ι) (agenda : List (Item α ι)) :
    (s.spawn agenda).unchecked = s.unchecked.spawn (agenda.map Item.unchecked) := by
  simp [spawn, unchecked]

omit [Leaf α] in
theorem noted_unchecked (w : World α σ ι) (item : Item α ι) :
    w.unchecked.noted item.unchecked = w.noted item := by
  cases item with
  | visit r node =>
    simp only [World.noted, Item.unchecked, World.run?_unchecked]
    cases w.run? r with
    | none => rfl
    | some x =>
      obtain ⟨region, mode⟩ := x
      cases mode <;> rfl
  | submit r node =>
    simp only [World.noted, Item.unchecked, World.runnerOf?_unchecked, World.runners_unchecked,
      World.offer_unchecked]
  | call c =>
    simp only [World.noted, Item.unchecked, World.operation?_unchecked, Option.isSome_map]
  | effect e =>
    cases e <;> simp only [World.noted, Item.unchecked, World.call?_unchecked]
  | _ => simp only [World.noted, Item.unchecked, World.call?_unchecked]

omit [Leaf α] in
theorem after_unchecked (s : Crew α σ ι) (i : Nat) (item : Item α ι) (w : World α σ ι) :
    (s.after i item w).unchecked = s.unchecked.after i item.unchecked w.unchecked := by
  have hbegins : item.unchecked.begins =
      item.begins.map fun (r, region) => (r, Region.unchecked region) := by
    cases item <;> rfl
  simp only [after, unchecked, hbegins, noted_unchecked, List.map_append, List.map_set]
  rfl

/-- A crew without checks makes the same moves. -/
theorem Move.unchecked (hs : s.Sound) (h : Move b ch s t) : Move b ch s.unchecked t.unchecked := by
  cases h with
  | @act _ i item rest w hi hw =>
    rw [after_unchecked]
    have hhead : s.unchecked.threads[i]? = some (item.unchecked :: rest.map Item.unchecked) := by
      simp [Crew.unchecked, hi]
    refine .act hhead ?_
    have hstep : (s.seenBy (item :: rest)).unchecked.step? b =
        ((s.seenBy (item :: rest)).step? b).map World.unchecked :=
      World.step?_unchecked _ b fun r node rest' region t holders hagenda hrun => by
        obtain ⟨rfl, rfl⟩ := List.cons.inj hagenda
        exact hs.conflict?_eq_none hi hrun
    rw [hw] at hstep
    exact hstep
  | @take _ k q q' t hk hq =>
    have htasks : (World.tasks t).map Item.unchecked = (World.tasks t : List (Item α ι)) := by
      cases t <;> rfl
    rw [spawn_unchecked, htasks]
    exact .take (s := s.unchecked) hk hq
  | @drop _ k q q' t hk hq =>
    have hlose : (lose b { s with world := s.world.setRunner k q' } t).unchecked =
        lose b { s.unchecked with world := s.unchecked.world.setRunner k q' } t := by
      cases t with
      | visit r node => simp only [lose, Crew.unchecked, spawn, List.map_append]; rfl
      | work x =>
        simp only [lose, spawn_unchecked, World.map_effect_unchecked]
        rfl
    rw [hlose]
    exact .drop (s := s.unchecked) hk hq
  | outside change =>
    rw [spawn_unchecked, World.map_effect_unchecked]
    exact .outside (s := s.unchecked) change
  | @execute _ k h hk =>
    have hhost : s.unchecked.world.hosts[k]? = some h.unchecked := by
      simp [Crew.unchecked, World.unchecked, hk]
    have hworld : (s.world.modifyHost k fun h =>
        { h with executions := h.executions.push {} }).unchecked =
          s.unchecked.world.modifyHost k fun h => { h with executions := h.executions.push {} } :=
      s.world.modifyHost_unchecked fun h => by
        simp only [Host.unchecked, Array.map_push]
        rfl
    have hsize : h.unchecked.executions.size = h.executions.size := by simp [Host.unchecked]
    have := Move.execute (b := b) (s := s.unchecked) hhost
    rw [hsize, ← hworld] at this
    rwa [spawn_unchecked]

/-- A move of a crew without checks is a move of the crew with them. -/
theorem Move.of_unchecked (hs : s.Sound) (h : Move b ch s.unchecked t) :
    ∃ t', Move b ch s t' ∧ t'.unchecked = t := by
  have hex : ∃ t', Move b ch s t' := by
    generalize hu : s.unchecked = u at h
    cases h with
    | @act _ i item rest w hi hw =>
      subst hu
      simp only [Crew.unchecked, List.getElem?_map, Option.map_eq_some_iff] at hi
      obtain ⟨items, hi, hmap⟩ := hi
      cases items with
      | nil => cases hmap
      | cons item' rest' => exact ⟨_, .act hi rfl⟩
    | take hk hq => subst hu; exact ⟨_, .take hk hq⟩
    | drop hk hq => subst hu; exact ⟨_, .drop hk hq⟩
    | outside change => exact ⟨_, .outside change⟩
    | @execute _ k h hk =>
      subst hu
      simp only [Crew.unchecked, World.unchecked, Array.getElem?_map, Option.map_eq_some_iff] at hk
      obtain ⟨h', hk, -⟩ := hk
      exact ⟨_, .execute hk⟩
  obtain ⟨t', ht'⟩ := hex
  exact ⟨t', ht', h.eq (ht'.unchecked hs)⟩

omit [Leaf α] in
theorem isFresh_of_unchecked {w w' : World α σ ι} (hw : w.IsFresh)
    (h : w'.unchecked = w.unchecked) : w'.IsFresh := by
  refine ⟨?_, fun x hx => ?_, ?_⟩
  · have := congrArg World.agenda h
    simpa [World.unchecked, hw.agenda] using this
  · have hhosts : w'.hosts.map Host.unchecked = w.hosts.map Host.unchecked :=
      congrArg World.hosts h
    have hmem : x.unchecked ∈ w.hosts.map Host.unchecked := hhosts ▸ Array.mem_map_of_mem hx
    obtain ⟨y, hy, heq⟩ := Array.mem_map.1 hmem
    have := congrArg Host.executions heq
    simpa [Host.unchecked, hw.executions y hy] using this.symm
  · have hrunners : w'.unchecked.runners = w.unchecked.runners := congrArg World.runners h
    rw [World.runners_unchecked, World.runners_unchecked] at hrunners
    rw [hrunners]
    exact hw.queued

theorem Follows.of_unchecked {w w' : World α σ ι} {cs : List (Choice σ ι)} (hw : w.IsFresh)
    (hww : w'.unchecked = w.unchecked) (h : Follows b { world := w } cs s) :
    ∃ s', Follows b { world := w' } cs s' ∧ s'.unchecked = s.unchecked := by
  induction h with
  | nil => exact ⟨_, .nil, by simp [Crew.unchecked, hww]⟩
  | @snoc cs c s t hf hm ih =>
    obtain ⟨s', hf', hs'⟩ := ih
    have hmove := hm.unchecked (hf.reachable hw).sound
    rw [← hs'] at hmove
    obtain ⟨t', hm', ht'⟩ :=
      hmove.of_unchecked (hf'.reachable (isFresh_of_unchecked hw hww)).sound
    exact ⟨t', hf'.snoc hm', ht'⟩

/-- Conflicting operations are never in flight together. Of two operations in flight in one execution
that conflict, one goes on inside the other; in one run, an operation is called only later than those
have ended well that come before it and conflict with it; so a node that is to be visited never
conflicts with one that its schedule knows in flight. Whatever is checked, the same choices lead to
the same events in the same order, the same device, outcomes and statistics. -/
theorem ReachableWhile.conflict_free (h : ReachableWhile Faithful b s) :
    (∀ c c' op op', s.InFlight c op → s.InFlight c' op' → c ≠ c' → c.run.host = c'.run.host →
      c.run.execution = c'.run.execution → ¬ c.Encloses c' → ¬ c'.Encloses c →
      op.footprint.conflicts op'.footprint = false) ∧
    (∀ r region i j op op' pre post, (r, region) ∈ s.begun → i < j →
      region.ops[i]? = some op → region.ops[j]? = some op' →
      op.footprint.conflicts op'.footprint → s.log = pre ++ .launched ⟨r, j⟩ :: post →
      .ended ⟨r, i⟩ (.ok ()) ∈ pre) ∧
    (∀ (i : Nat) r j rest region t holders, s.threads[i]? = some (Item.visit r j :: rest) →
      s.world.run? r = some ⟨region, .scheduled t holders⟩ → t.conflict? j = none) ∧
    ∀ (w w' : World α σ ι) (cs : List (Choice σ ι)), w.IsFresh → Follows b { world := w } cs s →
      w'.unchecked = w.unchecked → ∃ s', Follows b { world := w' } cs s' ∧ s'.log = s.log ∧
        s'.world.device = s.world.device ∧ s'.world.trace = s.world.trace ∧
        s'.world.panic = s.world.panic ∧
        (∀ host execution, s'.world.outcome? host execution = s.world.outcome? host execution) ∧
        ∀ k : Nat, s'.world.hosts[k]?.map Host.stats = s.world.hosts[k]?.map Host.stats := by
  refine ⟨fun c c' op op' hc hc' hne hhost hexecution hout hout' =>
      hc.not_conflicts hc' h hne hhost hexecution hout hout',
    fun r region i j op op' pre post hr hij hi hj hc hlog => ?_,
    fun i r j rest region t holders hi hrun => h.reachable.sound.conflict?_eq_none hi hrun,
    fun w w' cs hw hf hww => ?_⟩
  · have hgraph : region.graph.conflicts i j :=
      Graph.conflicts_build_iff.2
        ⟨_, _, by simp [Region.footprints, hi], by simp [Region.footprints, hj], hc⟩
    exact h.reachable.ended_before_launched hr hij hgraph hlog
  · obtain ⟨s', hf', hs'⟩ := hf.of_unchecked hw hww
    have hworld : s'.world.unchecked = s.world.unchecked := congrArg Crew.world hs'
    have hstats : ∀ (u : World α σ ι) (k : Nat),
        u.unchecked.hosts[k]?.map Host.stats = u.hosts[k]?.map Host.stats := fun u k => by
      simp only [World.unchecked, Array.getElem?_map, Option.map_map]
      rfl
    have hlog : s'.unchecked.log = s.unchecked.log := congrArg Crew.log hs'
    have hdevice : s'.world.unchecked.device = s.world.unchecked.device :=
      congrArg World.device hworld
    have htrace : s'.world.unchecked.trace = s.world.unchecked.trace := congrArg World.trace hworld
    have hpanic : s'.world.unchecked.panic = s.world.unchecked.panic := congrArg World.panic hworld
    refine ⟨s', hf', hlog, hdevice, htrace, hpanic, fun host execution => ?_, fun k => ?_⟩
    · rw [← World.outcome?_unchecked s'.world, hworld, World.outcome?_unchecked]
    · rw [← hstats s'.world, hworld, hstats]

def idling : Backend Primitive Unit Unit :=
  { (Backend.ending fun _ => .ok () : Backend Primitive Unit Unit) with
    launch := fun _ _ _ _ => ((), .ok []) }

/-- A call of an operation that writes a buffer, and an operation that writes another one, in
flight. -/
def bothOut : Crew Primitive Unit Unit :=
  single idling 15
    [.call { name := "f" } { ops :=
        [.leaf { name := "a" } (.scripted .copy { buffers := [.write ⟨0, 0, 1⟩] } .succeed)] },
      .leaf { name := "b" } (.scripted .copy { buffers := [.write ⟨1, 0, 1⟩] } .succeed)]

theorem conflict_free_bothOut : ∃ op op', bothOut.InFlight ⟨⟨0, 0, [(0, 0)]⟩, 0⟩ op ∧
    bothOut.InFlight ⟨⟨0, 0, []⟩, 1⟩ op' ∧ op.footprint.conflicts op'.footprint = false := by
  have hreach : ReachableWhile Faithful idling bothOut :=
    ReachableWhile.acts ((ReachableWhile.fresh (isFresh_alone _)).move (by decide +kernel)
      (.execute rfl)) 0 15 (by decide +kernel)
  have hflight : ∀ c, (bothOut.world.call? c).isSome → (bothOut.world.operation? c).isSome →
      ∃ op, bothOut.InFlight c op := fun c hy hop =>
    ⟨_, Option.isSome_iff_exists.1 hy, (Option.some_get hop).symm⟩
  obtain ⟨op, hop⟩ := hflight ⟨⟨0, 0, [(0, 0)]⟩, 0⟩ (by decide +kernel) (by decide +kernel)
  obtain ⟨op', hop'⟩ := hflight ⟨⟨0, 0, []⟩, 1⟩ (by decide +kernel) (by decide +kernel)
  have hlength : ∀ d : CallKey, ¬ d.Encloses ⟨⟨0, 0, []⟩, 1⟩ := fun d h => by
    have := h.length_lt
    simp at this
  have hout : ¬ (⟨⟨0, 0, []⟩, 1⟩ : CallKey).Encloses ⟨⟨0, 0, [(0, 0)]⟩, 0⟩ := fun h => by
    cases h with
    | single hd => exact absurd hd (by decide)
    | tail h hd =>
      obtain rfl := Option.some.inj hd
      have := CallKey.Encloses.length_lt h
      simp at this
  exact ⟨op, op', hop, hop', hreach.conflict_free.1 _ _ op op' hop hop' (by decide) rfl rfl
    (hlength _) hout⟩

end Crew

end Machine

end OpFlow
