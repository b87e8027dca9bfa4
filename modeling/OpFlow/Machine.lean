import OpFlow.Machine.Execution
import OpFlow.Runner

/-!
The machine that executes programs. A step takes the first item off an agenda, and what follows from
it is done before the rest. Executing a region, an operation or a loop never waits: what is not
finished when its start returns goes on when it ends. Leaf operations are the part of a backend,
which also reads the slices that steer branches and loops.
-/
namespace OpFlow.Machine

/-- What a backend asks for: that a call ends, that some work of its own is done now, or that a
runner does it later. -/
inductive Effect (ι : Type)
  | settle (call : CallKey) (outcome : Outcome)
  | work (item : ι)
  | submit (runner : Nat) (item : ι)

/-- The meaning of leaf operations `α` on a device in state `σ`, with work items `ι`. -/
structure Backend (α σ ι : Type) where
  /-- Starts an operation, or panics with a text. A call may end now, by an effect, or later. -/
  launch : CallKey → OpInfo → α → σ → σ × Except String (List (Effect ι))
  /-- Does some work, which may panic. -/
  perform : ι → σ → σ × List (Effect ι) × Option String
  /-- Gives up some work that will never be done. -/
  discard : ι → σ → σ × List (Effect ι)
  /-- The bytes of a slice on a host. -/
  read : Nat → Slice → σ → Except Error Bytes

inductive Task (ι : Type)
  | visit (run : RunKey) (node : Nat)
  | work (item : ι)

/-- Something that is to be done now. -/
inductive Item (α ι : Type)
  /-- Execute a region as this run. -/
  | start (run : RunKey) (region : Program α)
  /-- Run or skip a node of a scheduled run. -/
  | visit (run : RunKey) (node : Nat)
  /-- Hand a node of a scheduled run to the runner. -/
  | submit (run : RunKey) (node : Nat)
  /-- One holder of a scheduled run is gone. -/
  | release (run : RunKey)
  | call (call : CallKey)
  /-- The start of a call has returned. -/
  | returned (call : CallKey)
  | settle (call : CallKey) (outcome : Outcome)
  | settleRun (run : RunKey) (outcome : Outcome)
  /-- Start the next nested run of a loop. -/
  | iterate (call : CallKey)
  /-- The start of a loop's nested run has returned. -/
  | iterated (call : CallKey)
  | effect (effect : Effect ι)

structure World (α σ ι : Type) where
  device : σ
  hosts : Array (Host α) := #[]
  runners : Array (Runner (Task ι)) := #[]
  agenda : List (Item α ι) := []
  /-- The names of the operations that were called. -/
  trace : Array String := #[]
  /-- The text of a panic that ended a task. -/
  panic : Option String := none
  deriving Inhabited

namespace World

variable {α σ ι : Type}

/-- Puts items in front of all others. -/
def push (w : World α σ ι) (items : List (Item α ι)) : World α σ ι :=
  { w with agenda := items ++ w.agenda }

def modifyHost (w : World α σ ι) (h : Nat) (f : Host α → Host α) : World α σ ι :=
  { w with hosts := w.hosts.modify h f }

def modifyExecution (w : World α σ ι) (r : RunKey) (f : Execution α → Execution α) :
    World α σ ι :=
  w.modifyHost r.host fun h => { h with executions := h.executions.modify r.execution f }

def execution? (w : World α σ ι) (host execution : Nat) : Option (Execution α) :=
  w.hosts[host]?.bind fun h => h.executions[execution]?

def run? (w : World α σ ι) (r : RunKey) : Option (Run α) :=
  (w.execution? r.host r.execution).bind fun x => x.runs.get? r.scope

def setRun (w : World α σ ι) (r : RunKey) (run : Run α) : World α σ ι :=
  w.modifyExecution r fun x => { x with runs := x.runs.set r.scope run }

def eraseRun (w : World α σ ι) (r : RunKey) : World α σ ι :=
  w.modifyExecution r fun x => { x with runs := x.runs.erase r.scope }

def call? (w : World α σ ι) (c : CallKey) : Option Call :=
  (w.execution? c.run.host c.run.execution).bind fun x => x.calls.get? (c.run.scope, c.node)

def setCall (w : World α σ ι) (c : CallKey) (call : Call) : World α σ ι :=
  w.modifyExecution c.run fun x => { x with calls := x.calls.set (c.run.scope, c.node) call }

def eraseCall (w : World α σ ι) (c : CallKey) : World α σ ι :=
  w.modifyExecution c.run fun x => { x with calls := x.calls.erase (c.run.scope, c.node) }

def operation? (w : World α σ ι) (c : CallKey) : Option (Operation α) :=
  (w.run? c.run).bind fun r => r.region.ops[c.node]?

def infoOf (w : World α σ ι) (c : CallKey) : OpInfo :=
  ((w.operation? c).map Operation.info).getD { name := "" }

/-- Counts an event in the statistics of a host, which are those of its outermost runs. Nobody sees
those of the runs inside. -/
def count (w : World α σ ι) (r : RunKey) (f : Stats → Stats) : World α σ ι :=
  if r.scope.isEmpty then w.modifyHost r.host fun h => { h with stats := f h.stats } else w

def runnerOf? (w : World α σ ι) (host : Nat) : Option Nat := w.hosts[host]?.bind Host.runner

/-- Executes a region. An empty one has ended already; one without a runner, or whose graph fixes
the order, runs in order; any other starts with the nodes that wait for nothing. -/
def start [Leaf α] (w : World α σ ι) (r : RunKey) (region : Program α) : World α σ ι :=
  if region.ops.isEmpty then w.push [.settleRun r (.ok ())]
  else
    let graph := region.graph
    if (w.runnerOf? r.host).isSome && !graph.isSequential then
      let w := w.count r fun s => { s with executions := s.executions + 1 }
      let w := w.setRun r ⟨region, .scheduled (.start graph region.verify) 1⟩
      w.push (graph.sources.map (.submit r) ++ [.release r])
    else
      let w := w.count r fun s =>
        { s with executions := s.executions + 1, sequential := s.sequential + 1 }
      (w.setRun r ⟨region, .ordered⟩).push [.call ⟨r, 0⟩]

/-- A node of a scheduled run has completed. Its schedule goes on with the nodes that became ready:
if the call ended while it was started, the first of them is run right away and the others are
submitted, else all of them are submitted. -/
def completeNode (w : World α σ ι) (r : RunKey) (region : Program α) (s : Schedule)
    (holders node : Nat) (failed atOnce : Bool) : World α σ ι :=
  let (s, ready) := s.complete node failed
  let w := w.setRun r ⟨region, .scheduled s holders⟩
  let next := match atOnce, ready with
    | true, [] => []
    | true, first :: others => others.map (.submit r) ++ [.visit r first]
    | false, ready => ready.map (.submit r) ++ [.release r]
  if s.isComplete then
    (w.count r fun t => { t with skipped := t.skipped + s.skipped }).push
      (.settleRun r s.outcome :: next)
  else w.push next

/-- A call has ended, either while it was started or later, and its run goes on. -/
def finish (w : World α σ ι) (c : CallKey) (outcome : Outcome) (atOnce : Bool) : World α σ ι :=
  let info := w.infoOf c
  let w := w.eraseCall c
  match w.run? c.run with
  | none => w
  | some ⟨region, .ordered⟩ =>
    match outcome with
    | .error e =>
      (w.count c.run fun s =>
          { s with
            failed := s.failed + 1
            skipped := s.skipped + (region.ops.length - c.node - 1) }).push
        [.settleRun c.run (.error (e.attributedTo info))]
    | .ok () =>
      if c.node + 1 < region.ops.length then w.push [.call ⟨c.run, c.node + 1⟩]
      else w.push [.settleRun c.run (.ok ())]
  | some ⟨region, .scheduled s holders⟩ =>
    let s := s.leave c.node
    match outcome with
    | .error e =>
      (w.count c.run fun t => { t with failed := t.failed + 1 }).completeNode c.run region
        (s.recordError c.node (e.attributedTo info)) holders c.node true atOnce
    | .ok () => w.completeNode c.run region s holders c.node false atOnce

/-- Runs or skips a node of a scheduled run. That its footprint conflicts with a node in flight
would be a fault of the schedule itself. -/
def visit (w : World α σ ι) (r : RunKey) (node : Nat) : World α σ ι :=
  match w.run? r with
  | some ⟨region, .scheduled s holders⟩ =>
    if s.isPoisoned node then w.completeNode r region s.skip holders node true true
    else match s.conflict? node with
      | some other =>
        { w with panic := some ("conflicting operations " ++ (w.infoOf ⟨r, other⟩).display ++
            " and " ++ (w.infoOf ⟨r, node⟩).display ++ " scheduled concurrently") }
      | none =>
        (w.setRun r ⟨region, .scheduled (s.enter node) holders⟩).push [.call ⟨r, node⟩]
  | _ => w

/-- Changes the number of holders of a scheduled run. -/
def hold (w : World α σ ι) (r : RunKey) : World α σ ι :=
  match w.run? r with
  | some ⟨region, .scheduled s holders⟩ => w.setRun r ⟨region, .scheduled s (holders + 1)⟩
  | _ => w

/-- One holder of a scheduled run is gone. A run that nobody holds will never end by itself. -/
def release (w : World α σ ι) (r : RunKey) : World α σ ι :=
  match w.run? r with
  | some ⟨region, .scheduled s holders⟩ =>
    if holders ≤ 1 then w.push [.settleRun r (.error .promiseDropped)]
    else w.setRun r ⟨region, .scheduled s (holders - 1)⟩
  | _ => w

def setRunner (w : World α σ ι) (i : Nat) (r : Runner (Task ι)) : World α σ ι :=
  { w with runners := w.runners.setIfInBounds i r }

/-- What becomes of a task that is handed to a runner; one that does not exist drops it. -/
def offer (w : World α σ ι) (runner : Nat) (t : Task ι) : Offer (Task ι) :=
  match w.runners[runner]? with
  | some r => r.offer t
  | none => .dropped

def tasks (t : Task ι) : List (Item α ι) :=
  match t with
  | .visit r node => [.visit r node, .release r]
  | .work i => [.effect (.work i)]

/-- Hands a node of a scheduled run to the runner of its host. -/
def submit (w : World α σ ι) (r : RunKey) (node : Nat) : World α σ ι :=
  let w := w.hold r
  let runner := (w.runnerOf? r.host).getD w.runners.size
  match w.offer runner (.visit r node) with
  | .now => w.push (tasks (.visit r node))
  | .kept kept => w.setRunner runner kept
  | .dropped => w.push [.release r]

/-- Calls an operation: starts a leaf, or the nested run that control flow asks for. -/
def call (b : Backend α σ ι) (w : World α σ ι) (c : CallKey) : World α σ ι :=
  match w.operation? c with
  | none => w
  | some op =>
    let w := w.count c.run fun s => { s with launched := s.launched + 1 }
    let w := { w with trace := w.trace.push op.info.name }
    match op with
    | .leaf info a =>
      let w := w.setCall c {}
      match b.launch c info a w.device with
      | (device, .ok effects) =>
        ({ w with device } : World α σ ι).push (effects.map Item.effect ++ [.returned c])
      | (device, .error text) =>
        ({ w with device } : World α σ ι).push
          [.settle c (.error (.panicked text)), .returned c]
    | .call _ body => (w.setCall c {}).push [.start (c.nested 0) body, .returned c]
    | .conditional _ index type branches =>
      let w := w.setCall c {}
      match b.read c.run.host index w.device with
      | .error e => w.push [.settle c (.error e), .returned c]
      | .ok bytes =>
        match branches[type.choose branches.length bytes]? with
        | some branch => w.push [.start (c.nested 0) branch, .returned c]
        | none => w.push [.returned c]
    | .loop _ _ _ _ _ =>
      (w.setCall c { loop := some {} }).push [.iterate c, .returned c]

/-- Starts the next nested run of a loop: its condition, or its body if the number of iterations is
known, until that many have run. -/
def iterate (w : World α σ ι) (c : CallKey) : World α σ ι :=
  match w.operation? c, w.call? c with
  | some (.loop _ _ condition body trips), some ⟨progress, some l⟩ =>
    if !l.inBody && trips.any (· ≤ l.iteration) then w.push [.settle c (.ok ())]
    else
      let inBody := l.inBody || trips.isSome
      let l := { l with inBody, started := l.started + 1, progress := .entered }
      (w.setCall c ⟨progress, some l⟩).push
        [.start (c.nested (l.started - 1)) (if inBody then body else condition), .iterated c]
  | _, _ => w

/-- The nested run of a loop has ended, and the loop goes on or ends. -/
def advance (b : Backend α σ ι) (w : World α σ ι) (c : CallKey) (call : Call) (l : LoopState)
    (outcome : Outcome) : World α σ ι :=
  match outcome with
  | .error e => w.push [.settle c (.error e)]
  | .ok () =>
    if l.inBody then
      let l := { l with iteration := l.iteration + 1, inBody := false }
      (w.setCall c { call with loop := some l }).push [.iterate c]
    else match w.operation? c with
      | some (.loop _ predicate _ _ _) =>
        match b.read c.run.host predicate w.device with
        | .error e => w.push [.settle c (.error e)]
        | .ok bytes =>
          if bytes.head?.any (· != 0) then
            (w.setCall c { call with loop := some { l with inBody := true } }).push [.iterate c]
          else w.push [.settle c (.ok ())]
      | _ => w

/-- The start of a loop's nested run has returned. -/
def iterated (b : Backend α σ ι) (w : World α σ ι) (c : CallKey) : World α σ ι :=
  match w.call? c with
  | some ⟨progress, some l⟩ =>
    match l.progress with
    | .settled o => w.advance b c ⟨progress, some l⟩ l o
    | .entered | .awaited => w.setCall c ⟨progress, some { l with progress := .awaited }⟩
  | _ => w

/-- The start of a call has returned. A call that has not ended by then is awaited. -/
def returned (w : World α σ ι) (c : CallKey) : World α σ ι :=
  match w.call? c with
  | some ⟨.settled o, _⟩ => w.finish c o true
  | some ⟨_, l⟩ => (w.hold c.run).setCall c ⟨.awaited, l⟩
  | none => w

/-- A call has ended. It ends once; whatever comes later is void. -/
def settle (w : World α σ ι) (c : CallKey) (o : Outcome) : World α σ ι :=
  match w.call? c with
  | some ⟨.entered, l⟩ => w.setCall c ⟨.settled o, l⟩
  | some ⟨.awaited, _⟩ => w.finish c o false
  | some ⟨.settled _, _⟩ | none => w

/-- A run has ended: with it a call or a branch, a turn of a loop, or the whole execution. -/
def settleRun (b : Backend α σ ι) (w : World α σ ι) (r : RunKey) (o : Outcome) : World α σ ι :=
  let w := w.eraseRun r
  match r.caller? with
  | none => w.modifyExecution r fun x => { x with outcome := some o }
  | some c =>
    match w.call? c with
    | some ⟨_, none⟩ => w.push [.settle c o]
    | some ⟨progress, some l⟩ =>
      match l.progress with
      | .entered => w.setCall c ⟨progress, some { l with progress := .settled o }⟩
      | .awaited => w.advance b c ⟨progress, some l⟩ l o
      | .settled _ => w
    | none => w

/-- Carries out what a backend asks for. -/
def carryOut (b : Backend α σ ι) (w : World α σ ι) : Effect ι → World α σ ι
  | .settle c o => w.settle c o
  | .work i =>
    let (device, effects, panic) := b.perform i w.device
    ({ w with device, panic := panic <|> w.panic } : World α σ ι).push (effects.map Item.effect)
  | .submit runner i =>
    match w.offer runner (.work i) with
    | .now => w.push (tasks (.work i))
    | .kept kept => w.setRunner runner kept
    | .dropped =>
      let (device, effects) := b.discard i w.device
      ({ w with device } : World α σ ι).push (effects.map Item.effect)

/-- One step: the first item of the agenda. -/
def step? [Leaf α] (b : Backend α σ ι) (w : World α σ ι) : Option (World α σ ι) :=
  match w.agenda with
  | [] => none
  | item :: agenda =>
    let w := { w with agenda }
    some (match item with
      | .start r region => w.start r region
      | .visit r node => w.visit r node
      | .submit r node => w.submit r node
      | .release r => w.release r
      | .call c => w.call b c
      | .returned c => w.returned c
      | .settle c o => w.settle c o
      | .settleRun r o => w.settleRun b r o
      | .iterate c => w.iterate c
      | .iterated c => w.iterated b c
      | .effect e => w.carryOut b e)

/-- Takes at most `limit` steps. -/
def stepsUpTo [Leaf α] (b : Backend α σ ι) : Nat → World α σ ι → World α σ ι
  | 0, w => w
  | limit + 1, w =>
    match w.step? b with
    | some w => stepsUpTo b limit w
    | none => w

/-- More steps than any program takes that ends. -/
def stepLimit : Nat := Nat.pow 2 62

/-- Takes steps until nothing is left to be done now. -/
def settleAll [Leaf α] (b : Backend α σ ι) (w : World α σ ι) : World α σ ι :=
  stepsUpTo b stepLimit w

def perform [Leaf α] (b : Backend α σ ι) (w : World α σ ι) (items : List (Item α ι)) :
    World α σ ι :=
  (w.push items).settleAll b

/-- Starts an execution of a host's program. -/
def execute [Leaf α] (b : Backend α σ ι) (w : World α σ ι) (host : Nat) : World α σ ι :=
  match w.hosts[host]? with
  | none => w
  | some h =>
    (w.modifyHost host fun h => { h with executions := h.executions.push {} }).perform b
      [.start ⟨host, h.executions.size, []⟩ h.program]

/-- How a step of a lab runner ends. -/
inductive Stepped
  | notLab
  | idle
  | ran
  | panicked (text : String)
  deriving DecidableEq, Repr

/-- Lets a lab runner run one task. A panic leaves the rest of its queue as it is. -/
def stepLab [Leaf α] (b : Backend α σ ι) (w : World α σ ι) (runner : Nat) :
    World α σ ι × Stepped :=
  match w.runners[runner]? with
  | some (.lab l) =>
    match l.take? with
    | none => (w, .idle)
    | some (t, l) =>
      let w := (({ w with panic := none } : World α σ ι).setRunner runner (.lab l)).perform b (tasks t)
      match w.panic with
      | some text => ({ w with panic := none }, .panicked text)
      | none =>
        match w.runners[runner]? with
        | some r => (w.setRunner runner r.returned, .ran)
        | none => (w, .ran)
  | _ => (w, .notLab)

/-- Lets a lab runner run tasks until none is queued or one panics, and counts those that ran. -/
def idleLabUpTo [Leaf α] (b : Backend α σ ι) (runner : Nat) :
    Nat → Nat → World α σ ι → World α σ ι × Nat × Stepped
  | 0, ran, w => (w, ran, .idle)
  | limit + 1, ran, w =>
    match w.stepLab b runner with
    | (w, .ran) => idleLabUpTo b runner limit (ran + 1) w
    | (w, ending) => (w, ran, ending)

def idleLab [Leaf α] (b : Backend α σ ι) (w : World α σ ι) (runner : Nat) :
    World α σ ι × Nat × Stepped :=
  idleLabUpTo b runner stepLimit 0 w

def busyPool? (w : World α σ ι) : Option (Nat × Task ι × Runner (Task ι)) :=
  (List.range w.runners.size).findSome? fun i => do
    let (t, rest) ← (← w.runners[i]?).next?
    some (i, t, rest)

def drainPoolsUpTo [Leaf α] (b : Backend α σ ι) : Nat → World α σ ι → World α σ ι
  | 0, w => w
  | limit + 1, w =>
    match w.busyPool? with
    | none => w
    | some (i, t, rest) =>
      let w := (w.setRunner i rest).perform b (tasks t)
      match w.runners[i]? with
      | some r => drainPoolsUpTo b limit (w.setRunner i r.returned)
      | none => w

/-- Lets all pools run their tasks, each in the order of submission. A panic ends only its task. -/
def drainPools [Leaf α] (b : Backend α σ ι) (w : World α σ ι) : World α σ ι :=
  { drainPoolsUpTo b stepLimit w with panic := none }

end World

end OpFlow.Machine
