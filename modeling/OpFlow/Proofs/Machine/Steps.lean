import OpFlow.Proofs.Machine.Ordered
import OpFlow.Proofs.Machine.World

/-!
What a step can do. Each function of the machine puts some items in front of the agenda, may hand
tasks to runners, and changes at most one run and one call; there is one lemma for each function,
which says so for every case.
-/
namespace OpFlow.Machine

variable {α σ ι : Type}

theorem RunKey.ne_of_caller? {r : RunKey} {c : CallKey} (h : r.caller? = some c) : c.run ≠ r := by
  rintro rfl
  unfold RunKey.caller? at h
  split at h
  · cases h
  · rename_i node n scope hscope
    have hrun := congrArg (fun c => c.run.scope.length) (Option.some.inj h)
    simp [hscope] at hrun

namespace World

def kept (w : World α σ ι) : List (Task ι) := w.runners.toList.flatMap Runner.queued

/-- A world has put items on its agenda, handed tasks to runners, and come to these runs and
calls. -/
structure Became (w w' : World α σ ι) (items : List (Item α ι)) (tasks : List (Task ι))
    (run : RunKey → Option (Run α)) (call : CallKey → Option Call) : Prop where
  agenda : w'.agenda = items ++ w.agenda
  kept : w'.kept.Perm (tasks ++ w.kept)
  run : w'.run? = run
  call : w'.call? = call
  runner : w'.runnerOf? = w.runnerOf?
  knows : ∀ r, w'.Knows r ↔ w.Knows r

@[simp] theorem kept_push (w : World α σ ι) (items : List (Item α ι)) :
    (w.push items).kept = w.kept := rfl

namespace Became

variable {w w' : World α σ ι} {items : List (Item α ι)} {tasks : List (Task ι)}
  {run : RunKey → Option (Run α)} {call : CallKey → Option Call}

theorem refl (w : World α σ ι) : w.Became w [] [] w.run? w.call? :=
  ⟨rfl, .refl _, rfl, rfl, rfl, fun _ => .rfl⟩

theorem of_eq (h : w.Became w' items tasks run call) {u : World α σ ι}
    (hhosts : u.hosts = w'.hosts) (hrunners : u.runners = w'.runners)
    (hagenda : u.agenda = w'.agenda) : w.Became u items tasks run call := by
  obtain ⟨device, hosts, runners, agenda, trace, panic⟩ := u
  obtain rfl : hosts = w'.hosts := hhosts
  obtain rfl : runners = w'.runners := hrunners
  obtain rfl : agenda = w'.agenda := hagenda
  exact ⟨h.agenda, h.kept, h.run, h.call, h.runner, h.knows⟩

theorem setDevice (h : w.Became w' items tasks run call) (device : σ) :
    w.Became { w' with device } items tasks run call := h.of_eq rfl rfl rfl

theorem push (h : w.Became w' items tasks run call) (more : List (Item α ι)) :
    w.Became (w'.push more) (more ++ items) tasks run call :=
  ⟨by simp [h.agenda], h.kept, h.run, h.call, h.runner, h.knows⟩

theorem pushOnly (h : w.Became w' [] tasks run call) (items : List (Item α ι)) :
    w.Became (w'.push items) items tasks run call := by
  simpa using h.push items

theorem count (h : w.Became w' items tasks run call) (r : RunKey) (f : Stats → Stats) :
    w.Became (w'.count r f) items tasks run call := by
  refine ⟨by simp [h.agenda], by simpa [World.kept] using h.kept, ?_, ?_, ?_, ?_⟩
  · exact (funext fun r' => run?_count w' r' r f).trans h.run
  · exact (funext fun c => call?_count w' r c f).trans h.call
  · exact (funext fun k => runnerOf?_count w' r k f).trans h.runner
  · exact fun r' => (knows_count w' r' r f).trans (h.knows r')

theorem setRun (h : w.Became w' items tasks run call) {r : RunKey} (hr : w.Knows r) (x : Run α) :
    w.Became (w'.setRun r x) items tasks (Function.update run r (some x)) call := by
  refine ⟨h.agenda, h.kept, ?_, ?_, ?_, ?_⟩
  · funext r'
    rw [run?_setRun_of_knows _ _ _ _ ((h.knows r).2 hr), Function.update_apply, h.run]
  · exact (funext fun c => call?_setRun w' r c x).trans h.call
  · exact (funext fun k => runnerOf?_setRun w' r k x).trans h.runner
  · exact fun r' => (knows_setRun w' r' r x).trans (h.knows r')

theorem eraseRun (h : w.Became w' items tasks run call) (r : RunKey) :
    w.Became (w'.eraseRun r) items tasks (Function.update run r none) call := by
  refine ⟨h.agenda, h.kept, ?_, ?_, ?_, ?_⟩
  · funext r'
    rw [run?_eraseRun, Function.update_apply, h.run]
  · exact (funext fun c => call?_eraseRun w' r c).trans h.call
  · exact (funext fun k => runnerOf?_eraseRun w' r k).trans h.runner
  · exact fun r' => (knows_eraseRun w' r' r).trans (h.knows r')

theorem setCall (h : w.Became w' items tasks run call) {c : CallKey} (hc : w.Knows c.run)
    (y : Call) :
    w.Became (w'.setCall c y) items tasks run (Function.update call c (some y)) := by
  refine ⟨h.agenda, h.kept, ?_, ?_, ?_, ?_⟩
  · exact (funext fun r => run?_setCall w' r c y).trans h.run
  · funext c'
    rw [call?_setCall_of_knows _ _ _ _ ((h.knows c.run).2 hc), Function.update_apply, h.call]
  · exact (funext fun k => runnerOf?_setCall w' k c y).trans h.runner
  · exact fun r => (knows_setCall w' r c y).trans (h.knows r)

theorem eraseCall (h : w.Became w' items tasks run call) (c : CallKey) :
    w.Became (w'.eraseCall c) items tasks run (Function.update call c none) := by
  refine ⟨h.agenda, h.kept, ?_, ?_, ?_, ?_⟩
  · exact (funext fun r => run?_eraseCall w' r c).trans h.run
  · funext c'
    rw [call?_eraseCall, Function.update_apply, h.call]
  · exact (funext fun k => runnerOf?_eraseCall w' k c).trans h.runner
  · exact fun r => (knows_eraseCall w' r c).trans (h.knows r)

theorem setOutcome (h : w.Became w' items tasks run call) (r : RunKey) (o : Outcome) :
    w.Became (w'.modifyExecution r fun x => { x with outcome := some o }) items tasks run call := by
  refine ⟨h.agenda, h.kept, ?_, ?_, ?_, ?_⟩
  · refine (funext fun r' => ?_).trans h.run
    simp only [run?, execution?_modifyExecution]
    split
    · cases w'.execution? r'.host r'.execution <;> rfl
    · rfl
  · refine (funext fun c => ?_).trans h.call
    simp only [call?, execution?_modifyExecution]
    split
    · cases w'.execution? c.run.host c.run.execution <;> rfl
    · rfl
  · exact (funext fun k => runnerOf?_modifyExecution w' r k _).trans h.runner
  · exact fun r' => (knows_modifyExecution w' r' r _).trans (h.knows r')

/-- A runner keeps one more task. -/
theorem keep (h : w.Became w' items tasks run call) {k : Nat} {q q' : Runner (Task ι)} {t : Task ι}
    (hk : w'.runners[k]? = some q) (hq : q.offer t = .kept q') :
    w.Became (w'.setRunner k q') items (t :: tasks) run call := by
  refine ⟨h.agenda, ?_, h.run, h.call, h.runner, h.knows⟩
  refine List.Perm.trans ?_ (h.kept.cons t)
  obtain ⟨hlt, rfl⟩ := Array.getElem?_eq_some_iff.1 hk
  have hsplit := List.take_append_drop k w'.runners.toList
  have hset : (w'.setRunner k q').kept =
      (w'.runners.toList.take k).flatMap Runner.queued ++ (w'.runners[k].queued ++ [t]) ++
        (w'.runners.toList.drop (k + 1)).flatMap Runner.queued := by
    rw [← Runner.queued_offer hq]
    simp [World.kept, World.setRunner, List.set_eq_take_append_cons_drop, hlt]
  have hold : w'.kept = (w'.runners.toList.take k).flatMap Runner.queued ++ w'.runners[k].queued ++
      (w'.runners.toList.drop (k + 1)).flatMap Runner.queued := by
    conv_lhs => rw [World.kept, ← hsplit, List.drop_eq_getElem_cons (by simpa using hlt)]
    simp
  rw [hset, hold]
  simp only [List.append_assoc, List.singleton_append]
  refine (List.Perm.append_left _ List.perm_middle).trans ?_
  exact List.perm_middle

end Became

def proceed (r : RunKey) : Bool → List Nat → List (Item α ι)
  | true, [] => []
  | true, first :: others => others.map (.submit r) ++ [.visit r first]
  | false, ready => ready.map (.submit r) ++ [.release r]

def onward (r : RunKey) (s : Schedule) (ready : List Nat) (atOnce : Bool) : List (Item α ι) :=
  (if s.isComplete then [.settleRun r s.outcome] else []) ++ proceed r atOnce ready

def followUp (c : CallKey) (region : Program α) (o : Outcome) : List (Item α ι) :=
  if o = .ok () ∧ c.node + 1 < region.ops.length then [.call ⟨c.run, c.node + 1⟩]
  else [.settleRun c.run (RunView.verdict region c.node o)]

/-- What the start of an operation brings about, and what its call knows of a loop. -/
inductive Opens (b : Backend α σ ι) (d : σ) (c : CallKey) :
    Operation α → List (Item α ι) → Option LoopState → Prop
  | leaf {info : OpInfo} {a : α} {effects : List (Effect ι)}
      (hlaunch : (b.launch c info a d).2 = .ok effects) :
    Opens b d c (.leaf info a) (effects.map .effect) none
  | panicked {info : OpInfo} {a : α} {text : String}
      (hlaunch : (b.launch c info a d).2 = .error text) :
    Opens b d c (.leaf info a) [.settle c (.error (.panicked text))] none
  | body {info : OpInfo} {body : Program α} :
    Opens b d c (.call info body) [.start (c.nested 0) body] none
  | unread {info : OpInfo} {index : Slice} {type : IndexType} {branches : List (Program α)}
      {e : Error} (hread : b.read c.run.host index d = .error e) :
    Opens b d c (.conditional info index type branches) [.settle c (.error e)] none
  | branch {info : OpInfo} {index : Slice} {type : IndexType} {branches : List (Program α)}
      {branch : Program α} {bytes : Bytes} (hread : b.read c.run.host index d = .ok bytes)
      (hb : branches[type.choose branches.length bytes]? = some branch) :
    Opens b d c (.conditional info index type branches) [.start (c.nested 0) branch] none
  | nothing {info : OpInfo} {index : Slice} {type : IndexType} {branches : List (Program α)}
      {bytes : Bytes} (hread : b.read c.run.host index d = .ok bytes)
      (hb : branches[type.choose branches.length bytes]? = none) :
    Opens b d c (.conditional info index type branches) [] none
  | loop {info : OpInfo} {predicate : Slice} {condition body : Program α} {trips : Option Nat} :
    Opens b d c (.loop info predicate condition body trips) [.iterate c] (some {})

/-- How a loop goes on when a nested run has ended. -/
inductive Advances (b : Backend α σ ι) (d : σ) (c : CallKey) (op : Option (Operation α))
    (l : LoopState) : Outcome → List (Item α ι) → LoopState → Prop
  | failed {e : Error} : Advances b d c op l (.error e) [.settle c (.error e)] l
  | next (hin : l.inBody = true) : Advances b d c op l (.ok ()) [.iterate c]
      { l with iteration := l.iteration + 1, inBody := false }
  | unread {info : OpInfo} {predicate : Slice} {condition body : Program α} {trips : Option Nat}
      {e : Error} (hin : l.inBody = false)
      (hop : op = some (.loop info predicate condition body trips))
      (hread : b.read c.run.host predicate d = .error e) :
    Advances b d c op l (.ok ()) [.settle c (.error e)] l
  | again {info : OpInfo} {predicate : Slice} {condition body : Program α} {trips : Option Nat}
      {bytes : Bytes} (hin : l.inBody = false)
      (hop : op = some (.loop info predicate condition body trips))
      (hread : b.read c.run.host predicate d = .ok bytes) (htrue : bytes.head?.any (· != 0) = true) :
    Advances b d c op l (.ok ()) [.iterate c] { l with inBody := true }
  | finished {info : OpInfo} {predicate : Slice} {condition body : Program α} {trips : Option Nat}
      {bytes : Bytes} (hin : l.inBody = false)
      (hop : op = some (.loop info predicate condition body trips))
      (hread : b.read c.run.host predicate d = .ok bytes)
      (hfalse : bytes.head?.any (· != 0) = false) :
    Advances b d c op l (.ok ()) [.settle c (.ok ())] l
  | stuck (hin : l.inBody = false)
      (hop : ∀ info predicate condition body trips,
        op ≠ some (.loop info predicate condition body trips)) :
    Advances b d c op l (.ok ()) [] l

/-- What the next turn of a loop is: a nested run, or none. -/
inductive Turns (c : CallKey) (condition body : Program α) (trips : Option Nat) (l : LoopState) :
    List (Item α ι) → LoopState → Prop
  | finished (hin : l.inBody = false) (hall : trips.any (· ≤ l.iteration)) :
    Turns c condition body trips l [.settle c (.ok ())] l
  | body (hin : l.inBody || trips.isSome)
      (hmore : l.inBody = false → trips.any (· ≤ l.iteration) = false) :
    Turns c condition body trips l [.start (c.nested l.started) body, .iterated c]
      { l with inBody := true, started := l.started + 1, progress := .entered }
  | condition (hin : l.inBody = false) (htrips : trips = none) :
    Turns c condition body trips l [.start (c.nested l.started) condition, .iterated c]
      { l with started := l.started + 1, progress := .entered }

section Spec

variable [Leaf α] {w : World α σ ι} {b : Backend α σ ι}

theorem start_empty {r : RunKey} {region : Program α} (hempty : region.ops = []) :
    w.Became (w.start r region) [.settleRun r (.ok ())] [] w.run? w.call? := by
  rw [World.start, if_pos (by simp [hempty])]
  exact (Became.refl w).pushOnly _

theorem start_scheduled {r : RunKey} {region : Program α} (hr : w.Knows r)
    (hne : region.ops ≠ []) (hrunner : (w.runnerOf? r.host).isSome)
    (hunordered : region.graph.isSequential = false) :
    w.Became (w.start r region) (region.graph.sources.map (.submit r) ++ [.release r]) []
      (Function.update w.run? r
        (some ⟨region, .scheduled (.start region.graph region.verify) 1⟩)) w.call? := by
  have hne' : ¬ region.ops.isEmpty = true := by simpa using hne
  rw [World.start, if_neg hne']
  simp only [hrunner, hunordered, Bool.not_false, Bool.and_self, if_true]
  exact (((Became.refl w).count r _).setRun hr _).pushOnly _

theorem start_ordered {r : RunKey} {region : Program α} (hr : w.Knows r) (hne : region.ops ≠ [])
    (hordered : (w.runnerOf? r.host).isSome → region.graph.isSequential) :
    w.Became (w.start r region) [.call ⟨r, 0⟩] [] (Function.update w.run? r (some ⟨region, .ordered⟩))
      w.call? := by
  have hne' : ¬ region.ops.isEmpty = true := by simpa using hne
  have hnot : ((w.runnerOf? r.host).isSome && !region.graph.isSequential) = false := by
    cases h : (w.runnerOf? r.host).isSome
    · rfl
    · simp [hordered h]
  rw [World.start, if_neg hne']
  simp only [hnot, Bool.false_eq_true, if_false]
  exact (((Became.refl w).count r _).setRun hr _).pushOnly _

omit [Leaf α] in
theorem infoOf_eq {c : CallKey} {region : Program α} {mode : RunMode}
    (hrun : w.run? c.run = some ⟨region, mode⟩) : w.infoOf c = infoAt region c.node := by
  simp [infoOf, operation?, hrun, infoAt]

omit [Leaf α] in
theorem Became.completeNode {w' : World α σ ι} {run : RunKey → Option (Run α)}
    {call : CallKey → Option Call} (h : w.Became w' [] [] run call) {r : RunKey} (hr : w.Knows r)
    (region : Program α) (s : Schedule) (holders node : Nat) (failed atOnce : Bool) :
    w.Became (w'.completeNode r region s holders node failed atOnce)
      (onward r (s.complete node failed).1 (s.complete node failed).2 atOnce) []
      (Function.update run r (some ⟨region, .scheduled (s.complete node failed).1 holders⟩)) call := by
  have hset := h.setRun hr ⟨region, .scheduled (s.complete node failed).1 holders⟩
  have heq : w'.completeNode r region s holders node failed atOnce =
      let w := w'.setRun r ⟨region, .scheduled (s.complete node failed).1 holders⟩
      if (s.complete node failed).1.isComplete then
        (w.count r fun t => { t with skipped := t.skipped + (s.complete node failed).1.skipped }).push
          (.settleRun r (s.complete node failed).1.outcome ::
            proceed r atOnce (s.complete node failed).2)
      else w.push (proceed r atOnce (s.complete node failed).2) := by
    rw [World.completeNode]
    cases atOnce
    · rfl
    · cases h : (s.complete node failed).2 <;> simp [proceed, h]
  rw [heq, onward]
  dsimp only
  split
  case isTrue => exact (hset.count r _).pushOnly _
  case isFalse => exact hset.pushOnly _

omit [Leaf α] in
theorem finish_gone {c : CallKey} {o : Outcome} {atOnce : Bool} (hrun : w.run? c.run = none) :
    w.Became (w.finish c o atOnce) [] [] w.run? (Function.update w.call? c none) := by
  rw [World.finish, run?_eraseCall, hrun]
  exact (Became.refl w).eraseCall c

omit [Leaf α] in
theorem finish_ordered {c : CallKey} {o : Outcome} (atOnce : Bool) {region : Program α}
    (hrun : w.run? c.run = some ⟨region, .ordered⟩) :
    w.Became (w.finish c o atOnce) (followUp c region o) [] w.run?
      (Function.update w.call? c none) := by
  rw [World.finish, run?_eraseCall, hrun, infoOf_eq hrun]
  have h := (Became.refl w).eraseCall c
  cases o with
  | error e =>
    have := (h.count c.run fun s => { s with
      failed := s.failed + 1
      skipped := s.skipped + (region.ops.length - c.node - 1) }).push (followUp c region (.error e))
    simpa [followUp, RunView.verdict] using this
  | ok u =>
    by_cases hlt : c.node + 1 < region.ops.length
    · have := h.push (followUp c region (.ok ()))
      simpa [followUp, hlt] using this
    · have := h.push (followUp c region (.ok ()))
      simpa [followUp, hlt, RunView.verdict] using this

omit [Leaf α] in
theorem finish_scheduled {c : CallKey} {o : Outcome} (atOnce : Bool) {region : Program α}
    {s t : Schedule} {holders : Nat} {ready : List Nat}
    (hrun : w.run? c.run = some ⟨region, .scheduled s holders⟩)
    (ht : ((s.noteEnd c.node (infoAt region c.node) o).complete c.node
      (NodeState.ended o).isBad) = (t, ready)) :
    w.Became (w.finish c o atOnce) (onward c.run t ready atOnce) []
      (Function.update w.run? c.run (some ⟨region, .scheduled t holders⟩))
      (Function.update w.call? c none) := by
  rw [World.finish, run?_eraseCall, hrun, infoOf_eq hrun]
  have h := (Became.refl w).eraseCall c
  have hr := knows_of_run? hrun
  cases o with
  | error e =>
    have := (h.count c.run fun t => { t with failed := t.failed + 1 }).completeNode hr region
      ((s.leave c.node).recordError c.node (e.attributedTo (infoAt region c.node))) holders c.node
      true atOnce
    have hc : ((s.leave c.node).recordError c.node
      (e.attributedTo (infoAt region c.node))).complete c.node true = (t, ready) := ht
    rwa [hc] at this
  | ok u =>
    have := h.completeNode hr region (s.leave c.node) holders c.node false atOnce
    have hc : (s.leave c.node).complete c.node false = (t, ready) := ht
    rwa [hc] at this

omit [Leaf α] in
theorem visit_poisoned {r : RunKey} {node : Nat} {region : Program α} {s t : Schedule}
    {holders : Nat} {ready : List Nat} (hrun : w.run? r = some ⟨region, .scheduled s holders⟩)
    (hp : s.isPoisoned node = true) (ht : s.skip.complete node true = (t, ready)) :
    w.Became (w.visit r node) (onward r t ready true) []
      (Function.update w.run? r (some ⟨region, .scheduled t holders⟩)) w.call? := by
  rw [World.visit, hrun]
  simp only [hp, if_true]
  have := (Became.refl w).completeNode (knows_of_run? hrun) region s.skip holders node true true
  rwa [ht] at this

omit [Leaf α] in
theorem visit_enter {r : RunKey} {node : Nat} {region : Program α} {s : Schedule}
    {holders : Nat} (hrun : w.run? r = some ⟨region, .scheduled s holders⟩)
    (hp : s.isPoisoned node = false) (hc : s.conflict? node = none) :
    w.Became (w.visit r node) [.call ⟨r, node⟩] []
      (Function.update w.run? r (some ⟨region, .scheduled (s.enter node) holders⟩)) w.call? := by
  rw [World.visit, hrun]
  simp only [hp, Bool.false_eq_true, if_false, hc]
  exact ((Became.refl w).setRun (knows_of_run? hrun) _).push _

omit [Leaf α] in
theorem hold_scheduled {r : RunKey} {region : Program α} {s : Schedule} {holders : Nat}
    (hrun : w.run? r = some ⟨region, .scheduled s holders⟩) :
    w.hold r = w.setRun r ⟨region, .scheduled s (holders + 1)⟩ := by
  rw [World.hold, hrun]

omit [Leaf α] in
/-- What becomes of a node that is handed to a runner. -/
theorem submit_cases {r : RunKey} (node : Nat) {region : Program α} {s : Schedule} {holders : Nat}
    (hrun : w.run? r = some ⟨region, .scheduled s holders⟩) :
    (∃ items tasks, w.Became (w.submit r node) items tasks
      (Function.update w.run? r (some ⟨region, .scheduled s (holders + 1)⟩)) w.call? ∧
      (items = [.visit r node, .release r] ∧ tasks = [] ∨
        items = [] ∧ tasks = [.visit r node]) ∧ w.noted (.submit r node) = []) ∨
    (w.Became (w.submit r node) [.release r] []
      (Function.update w.run? r (some ⟨region, .scheduled s (holders + 1)⟩)) w.call? ∧
      w.noted (.submit r node) = [.dropped ⟨r, node⟩]) := by
  have h := (Became.refl w).setRun (knows_of_run? hrun) ⟨region, .scheduled s (holders + 1)⟩
  rw [World.submit, hold_scheduled hrun]
  simp only [runnerOf?_setRun, runners_setRun, noted]
  have hoffer : (w.setRun r ⟨region, .scheduled s (holders + 1)⟩).offer =
      (w.offer : Nat → Task ι → _) := rfl
  rw [hoffer]
  cases hq : w.offer ((w.runnerOf? r.host).getD w.runners.size) (.visit r node) with
  | now => exact .inl ⟨_, _, h.push _, .inl ⟨rfl, rfl⟩, rfl⟩
  | kept q' =>
    refine .inl ⟨[], [.visit r node], ?_, .inr ⟨rfl, rfl⟩, rfl⟩
    simp only [offer] at hq
    split at hq
    case h_1 q hk => exact h.keep hk hq
    case h_2 => cases hq
  | dropped => exact .inr ⟨h.push _, rfl⟩

omit [Leaf α] in
theorem release_last {r : RunKey} {region : Program α} {s : Schedule} {holders : Nat}
    (hrun : w.run? r = some ⟨region, .scheduled s holders⟩) (hlast : holders ≤ 1) :
    w.Became (w.release r) [.settleRun r (.error .promiseDropped)] [] w.run? w.call? := by
  rw [World.release, hrun]
  simp only [hlast, if_true]
  exact (Became.refl w).push _

omit [Leaf α] in
theorem release_other {r : RunKey} {region : Program α} {s : Schedule} {holders : Nat}
    (hrun : w.run? r = some ⟨region, .scheduled s holders⟩) (hother : ¬ holders ≤ 1) :
    w.Became (w.release r) [] []
      (Function.update w.run? r (some ⟨region, .scheduled s (holders - 1)⟩)) w.call? := by
  rw [World.release, hrun]
  simp only [hother, if_false]
  exact (Became.refl w).setRun (knows_of_run? hrun) _

omit [Leaf α] in
theorem release_gone {r : RunKey} (hrun : w.run? r = none) : w.release r = w := by
  rw [World.release, hrun]

def noteCall (w : World α σ ι) (c : CallKey) (op : Operation α) : World α σ ι :=
  let w := w.count c.run fun s => { s with launched := s.launched + 1 }
  { w with trace := w.trace.push op.info.name }

omit [Leaf α] in
theorem became_noteCall (w : World α σ ι) (c : CallKey) (op : Operation α) :
    w.Became (w.noteCall c op) [] [] w.run? w.call? :=
  ((Became.refl w).count c.run _).of_eq rfl rfl rfl

omit [Leaf α] in
@[simp] theorem device_count (w : World α σ ι) (r : RunKey) (f : Stats → Stats) :
    (w.count r f).device = w.device := by
  unfold count
  split <;> rfl

omit [Leaf α] in
@[simp] theorem device_setCall (w : World α σ ι) (c : CallKey) (call : Call) :
    (w.setCall c call).device = w.device := rfl

omit [Leaf α] in
@[simp] theorem device_noteCall (w : World α σ ι) (c : CallKey) (op : Operation α) :
    (w.noteCall c op).device = w.device := device_count w c.run _

omit [Leaf α] in
/-- The start of an operation. -/
theorem call_cases {c : CallKey} {op : Operation α} (hc : w.Knows c.run)
    (hop : w.operation? c = some op) :
    ∃ opening l, Opens b w.device c op opening l ∧
      w.Became (w.call b c) (opening ++ [.returned c]) [] w.run?
        (Function.update w.call? c (some { loop := l })) := by
  have h : ∀ l, w.Became ((w.noteCall c op).setCall c { loop := l }) [] [] w.run?
      (Function.update w.call? c (some { loop := l })) := fun l =>
    (became_noteCall w c op).setCall hc _
  cases op with
  | leaf info a =>
    rcases hlaunch : b.launch c info a w.device with ⟨device, text | effects⟩
    · refine ⟨_, _, .panicked (by rw [hlaunch]), ?_⟩
      simp only [World.call, hop, device_setCall, device_count, hlaunch]
      exact ((h none).setDevice device).pushOnly _
    · refine ⟨_, _, .leaf (by rw [hlaunch]), ?_⟩
      simp only [World.call, hop, device_setCall, device_count, hlaunch]
      exact ((h none).setDevice device).pushOnly _
  | call info body =>
    refine ⟨_, _, .body, ?_⟩
    rw [World.call, hop]
    exact (h none).pushOnly _
  | conditional info index type branches =>
    cases hread : b.read c.run.host index w.device with
    | error e =>
      refine ⟨_, _, .unread hread, ?_⟩
      simp only [World.call, hop, device_setCall, device_count, hread]
      exact ((h none).setDevice w.device).pushOnly _
    | ok bytes =>
      cases hbranch : branches[type.choose branches.length bytes]? with
      | some branch =>
        refine ⟨_, _, .branch hread hbranch, ?_⟩
        simp only [World.call, hop, device_setCall, device_count, hread, hbranch]
        exact ((h none).setDevice w.device).pushOnly _
      | none =>
        refine ⟨_, _, .nothing hread hbranch, ?_⟩
        simp only [World.call, hop, device_setCall, device_count, hread, hbranch]
        exact ((h none).setDevice w.device).pushOnly _
  | loop info predicate condition body trips =>
    refine ⟨_, _, .loop, ?_⟩
    rw [World.call, hop]
    exact (h (some {})).pushOnly _

omit [Leaf α] in
theorem Became.setSame {w' : World α σ ι} {items : List (Item α ι)} {tasks : List (Task ι)}
    {run : RunKey → Option (Run α)} {call : CallKey → Option Call} {c : CallKey} {y : Option Call}
    (h : w.Became w' items tasks run call) (hy : call c = y) :
    w.Became w' items tasks run (Function.update call c y) := by
  rwa [← hy, Function.update_eq_self]

omit [Leaf α] in
theorem iterate_cases {c : CallKey} {p : Progress} {l : LoopState} {info : OpInfo}
    {predicate : Slice} {condition body : Program α} {trips : Option Nat}
    (hop : w.operation? c = some (.loop info predicate condition body trips))
    (hc : w.call? c = some ⟨p, some l⟩) :
    ∃ items l', Turns c condition body trips l items l' ∧
      w.Became (w.iterate c) items [] w.run? (Function.update w.call? c (some ⟨p, some l'⟩)) := by
  rw [World.iterate, hop, hc]
  dsimp only
  split
  case isTrue h =>
    simp only [Bool.and_eq_true, Bool.not_eq_true'] at h
    exact ⟨_, l, .finished h.1 h.2, ((Became.refl w).setSame hc).pushOnly _⟩
  case isFalse h =>
    have hset := (Became.refl w).setCall (knows_of_call? hc) ⟨p, some { l with
      inBody := l.inBody || trips.isSome
      started := l.started + 1
      progress := .entered }⟩
    cases hin : (l.inBody || trips.isSome) with
    | true =>
      rw [hin] at hset
      exact ⟨_, _, .body hin fun hl => by simpa [hl] using h, hset.pushOnly _⟩
    | false =>
      obtain ⟨hl, ht⟩ : l.inBody = false ∧ trips = none := by simpa using hin
      obtain ⟨iteration, inBody, started, progress⟩ := l
      obtain rfl : inBody = false := hl
      rw [hin] at hset
      exact ⟨_, _, .condition rfl ht, hset.pushOnly _⟩

omit [Leaf α] in
theorem advance_cases {w' : World α σ ι} {run : RunKey → Option (Run α)}
    {call : CallKey → Option Call} (h : w.Became w' [] [] run call) {c : CallKey} {p : Progress}
    {l : LoopState} (hc : call c = some ⟨p, some l⟩) (o : Outcome) :
    ∃ items l', Advances b w'.device c (w'.operation? c) l o items l' ∧
      w.Became (w'.advance b c ⟨p, some l⟩ l o) items [] run
        (Function.update call c (some ⟨p, some l'⟩)) := by
  have hsame := h.setSame hc
  have hknows : w.Knows c.run := (h.knows c.run).1 (knows_of_call? (h.call ▸ hc))
  cases o with
  | error e => exact ⟨_, l, .failed, hsame.pushOnly _⟩
  | ok u =>
    rw [World.advance]
    split
    case isTrue hin =>
      exact ⟨_, { l with iteration := l.iteration + 1, inBody := false }, .next hin,
        (h.setCall hknows _).pushOnly _⟩
    case isFalse hin =>
      have hin' : l.inBody = false := by simpa using hin
      split
      case h_1 hop =>
        split
        case h_1 e hread => exact ⟨_, l, .unread hin' hop hread, hsame.pushOnly _⟩
        case h_2 hread =>
          split
          case isTrue htrue =>
            exact ⟨_, { l with inBody := true }, .again hin' hop hread htrue,
              (h.setCall hknows _).pushOnly _⟩
          case isFalse hfalse =>
            exact ⟨_, l, .finished hin' hop hread (by simpa using hfalse), hsame.pushOnly _⟩
      case h_2 hop => exact ⟨[], l, .stuck hin' hop, hsame⟩

omit [Leaf α] in
theorem iterated_cases {c : CallKey} {p : Progress} {l : LoopState}
    (hc : w.call? c = some ⟨p, some l⟩) :
    (∃ o items l', l.progress = .settled o ∧
      Advances b w.device c (w.operation? c) l o items l' ∧
      w.Became (w.iterated b c) items [] w.run? (Function.update w.call? c (some ⟨p, some l'⟩))) ∨
    (∀ o, l.progress ≠ .settled o) ∧ w.Became (w.iterated b c) [] [] w.run?
      (Function.update w.call? c (some ⟨p, some { l with progress := .awaited }⟩)) := by
  rw [World.iterated, hc]
  dsimp only
  have hset := (Became.refl w).setCall (knows_of_call? hc) ⟨p, some { l with progress := .awaited }⟩
  cases hp : l.progress with
  | settled o =>
    obtain ⟨items, l', hadv, hbecame⟩ := advance_cases (b := b) (Became.refl w) hc o
    exact .inl ⟨o, items, l', rfl, hadv, hbecame⟩
  | entered => exact .inr ⟨by simp, hset⟩
  | awaited => exact .inr ⟨by simp, hset⟩

omit [Leaf α] in
theorem iterated_other {c : CallKey} (hc : ∀ p l, w.call? c ≠ some ⟨p, some l⟩) :
    w.iterated b c = w := by
  rw [World.iterated]
  split
  case h_1 p l h => exact absurd h (hc p l)
  case h_2 => rfl

omit [Leaf α] in
/-- The end of a nested run, as the call that it belongs to sees it. -/
theorem settleRun_nested {r : RunKey} {c : CallKey} (hr : r.caller? = some c) (o : Outcome) :
    ∃ items call', w.Became (w.settleRun b r o) items [] (Function.update w.run? r none)
      (Function.update w.call? c call') ∧
      ((w.call? c = none ∧ items = [] ∧ call' = none) ∨
        (∃ p, w.call? c = some ⟨p, none⟩ ∧ items = [.settle c o] ∧ call' = some ⟨p, none⟩) ∨
        ∃ p l, w.call? c = some ⟨p, some l⟩ ∧
          ((l.progress = .entered ∧ items = [] ∧
              call' = some ⟨p, some { l with progress := .settled o }⟩) ∨
            (l.progress = .awaited ∧ ∃ l', Advances b w.device c (w.operation? c) l o items l' ∧
              call' = some ⟨p, some l'⟩) ∨
            ((∃ o', l.progress = .settled o') ∧ items = [] ∧ call' = some ⟨p, some l⟩))) := by
  have h := (Became.refl w).eraseRun r
  rw [World.settleRun, hr]
  dsimp only
  rw [call?_eraseRun]
  cases hc : w.call? c with
  | none => exact ⟨[], none, h.setSame hc, .inl ⟨rfl, rfl, rfl⟩⟩
  | some x =>
    obtain ⟨p, l⟩ := x
    cases l with
    | none => exact ⟨_, _, (h.setSame hc).pushOnly _, .inr (.inl ⟨p, rfl, rfl, rfl⟩)⟩
    | some l =>
      dsimp only
      cases hp : l.progress with
      | entered =>
        exact ⟨[], _, h.setCall (knows_of_call? hc) _, .inr (.inr ⟨p, l, rfl, .inl ⟨hp, rfl, rfl⟩⟩)⟩
      | awaited =>
        obtain ⟨items, l', hadv, hbecame⟩ := advance_cases (b := b) h hc o
        have hop : (w.eraseRun r).operation? c = w.operation? c := by
          rw [operation?, operation?, run?_eraseRun, if_neg (RunKey.ne_of_caller? hr)]
        rw [hop] at hadv
        exact ⟨items, _, hbecame, .inr (.inr ⟨p, l, rfl, .inr (.inl ⟨hp, l', hadv, rfl⟩)⟩)⟩
      | settled o' =>
        exact ⟨[], _, h.setSame hc, .inr (.inr ⟨p, l, rfl, .inr (.inr ⟨⟨o', hp⟩, rfl, rfl⟩)⟩)⟩

omit [Leaf α] in
theorem settleRun_outermost {r : RunKey} (hr : r.caller? = none) (o : Outcome) :
    w.Became (w.settleRun b r o) [] [] (Function.update w.run? r none) w.call? := by
  rw [World.settleRun, hr]
  exact ((Became.refl w).eraseRun r).setOutcome r o

omit [Leaf α] in
theorem returned_unsettled {c : CallKey} {p : Progress} {l : Option LoopState}
    (hc : w.call? c = some ⟨p, l⟩) (hp : ∀ o, p ≠ .settled o) :
    w.returned c = (w.hold c.run).setCall c ⟨.awaited, l⟩ := by
  rw [World.returned, hc]
  cases p with
  | settled o => exact absurd rfl (hp o)
  | entered | awaited => rfl

omit [Leaf α] in
theorem carryOut_submit (b : Backend α σ ι) (k : Nat) (i : ι) :
    (∃ items tasks, w.Became (w.carryOut b (.submit k i)) items tasks w.run? w.call? ∧
      (∀ x ∈ items, ∃ e, x = .effect e) ∧ ∀ t ∈ tasks, ∃ i, t = Task.work i) := by
  rw [World.carryOut]
  cases hq : w.offer k (.work i) with
  | now => exact ⟨_, _, (Became.refl w).pushOnly _, by simp [tasks], by simp⟩
  | kept q' =>
    simp only [offer] at hq
    split at hq
    case h_1 q hk => exact ⟨_, _, (Became.refl w).keep hk hq, by simp, by simp⟩
    case h_2 => cases hq
  | dropped =>
    exact ⟨_, _, ((Became.refl w).setDevice _).pushOnly _, by simp, by simp⟩

omit [Leaf α] in
theorem carryOut_work (b : Backend α σ ι) (i : ι) :
    ∃ items, w.Became (w.carryOut b (.work i)) items [] w.run? w.call? ∧
      ∀ x ∈ items, ∃ e, x = .effect e :=
  ⟨_, ((Became.refl w).of_eq (u := { w with
      device := (b.perform i w.device).1
      panic := (b.perform i w.device).2.2 <|> w.panic }) rfl rfl rfl).pushOnly _, by simp⟩

end Spec

end World

end OpFlow.Machine
