import OpFlow.Collective.Session
import OpFlow.Draft
import OpFlow.Platform

/-!
Scenarios: several hosts, each with a program, an arena and options of its own, that share one
transport for collective exchanges and are driven step by step. Time passes only while a step waits.
-/
namespace OpFlow

open Machine (Host RunKey World Stats)

/-- The runner of a host's operations, or of its kernels' threads, as it is written down. -/
inductive RunnerDraft
  | inline
  | lab (seed : UInt64)
  | pool (threads : Nat) (closed : Bool)
  /-- The lab that hosts share. -/
  | shared
  /-- The runner of the host's operations. -/
  | same
  deriving DecidableEq, Repr, Inhabited

inductive ContextDraft
  | forProgram
  | assembled (withCollective withCustomCall : Bool)
  deriving DecidableEq, Repr, Inhabited

structure HostDraft where
  program : List Draft
  slots : List Bytes
  options : OptionsDraft
  runner : Option RunnerDraft := none
  threads : Option RunnerDraft := none
  context : ContextDraft
  deriving Inhabited

structure ScenarioDraft where
  settings : RegionSettings := {}
  resources : ResourceNames := []
  /-- How long an exchange waits for its participants, in milliseconds. -/
  timeout : Nat := 40000
  sharedLab : Option UInt64 := none
  hosts : List HostDraft
  deriving Inhabited

/-- What is remembered of a host that was built. -/
structure HostHandle where
  runner : Option Nat
  threads : Option Nat
  options : RunOptions
  deriving Inhabited

structure Scenario where
  world : World Primitive Platform Work
  hosts : Array (Except Error HostHandle) := #[]
  sharedLab : Option Nat := none
  nextResource : Nat

namespace Scenario

/-- Adds a runner, unless an existing one is meant. -/
def addRunner (s : Scenario) (own : Option Nat) : Option RunnerDraft → Scenario × Option Nat
  | none => (s, none)
  | some .shared => (s, s.sharedLab)
  | some .same => (s, own)
  | some .inline => add .inline
  | some (.lab seed) => add (.lab (.ofSeed seed))
  | some (.pool threads closed) => add (.pool { WorkerPool.ofThreads threads with closed })
where
  add (r : Runner (Machine.Task Work)) : Scenario × Option Nat :=
    ({ s with world := { s.world with runners := s.world.runners.push r } },
      some s.world.runners.size)

/-- How the threads of kernels run on a runner. -/
def threadMode (s : Scenario) (threads : Option Nat) : ThreadMode :=
  match threads with
  | none => .inOrder
  | some i =>
    match s.world.runners[i]? with
    | some .inline => .inline
    | _ => .onRunner i

/-- What building a host gives: its parts, and the next free resource number. -/
structure Built where
  options : RunOptions
  program : Program Primitive
  context : RunContext
  next : Nat

/-- The parts of a host: its options, then its program, then its context. -/
def buildParts (d : ScenarioDraft) (next : Nat) (h : HostDraft) : Except Fault Built := do
  let options ← h.options.build h.runner.isSome h.threads.isSome
  let (program, next) ← (Draft.program d.resources d.settings next h.program).mapError .error
  let context ← (match h.context with
    | .forProgram => RunContext.forProgram options program
    | .assembled withCollective withCustomCall =>
      RunContext.assemble options withCollective withCustomCall).mapError .error
  return ⟨options, program, context, next⟩

/-- Adds a host; one that cannot be built keeps its number and its error. A panic leaves no
scenario. -/
def addHost (d : ScenarioDraft) (s : Scenario) (h : HostDraft) : Except Fault Scenario :=
  let (s, runner) := s.addRunner none h.runner
  let (s, threads) := s.addRunner runner h.threads
  let mode := s.threadMode threads
  let place (host : Host Primitive) (state : HostState) (handle : Except Error HostHandle)
      (next : Nat) : Except Fault Scenario :=
    .ok { s with
      world := { s.world with
        hosts := s.world.hosts.push host
        device := { s.world.device with hosts := s.world.device.hosts.push state } }
      hosts := s.hosts.push handle
      nextResource := next }
  match buildParts d s.nextResource h with
  | .error (.panic text) => .error (.panic text)
  | .error (.error e) => place { program := ⟨[], true, true⟩ } { arena := .ofSlots [] } (.error e)
      s.nextResource
  | .ok b =>
    place { program := b.program, runner }
      { arena := .ofSlots h.slots, context := b.context, threads := mode
        allocator := b.options.allocator }
      (.ok ⟨runner, threads, b.options⟩) b.next

/-- A scenario before its first step. -/
def ofDraft (d : ScenarioDraft) : Except Fault Scenario :=
  let runners := (d.sharedLab.map fun seed => Runner.lab (.ofSeed seed)).toList.toArray
  let s : Scenario :=
    { world := { device := { transport := .ofTimeout d.timeout }, runners }
      sharedLab := d.sharedLab.map fun _ => 0
      nextResource := d.resources.length }
  d.hosts.foldlM (addHost d) s

/-- A step of a scenario. -/
inductive Step
  | execute (host : Nat)
  | executeAndWait (host : Nat)
  | wait (host execution ms : Nat)
  | stepRunner (host : Nat)
  | idleRunner (host : Nat)
  | stepThreads (host : Nat)
  | idleThreads (host : Nat)
  | infeed (host : Nat) (bytes : Bytes)
  | outfeed (host : Nat)
  | write (host : Nat) (slice : Slice) (bytes : Bytes)
  | joined (host : Nat)
  /-- End an operation that waits for somebody outside. -/
  | endDeferred (number : Nat) (outcome : Outcome)
  deriving Inhabited

inductive Reply
  | nothing
  | status (s : Option Outcome)
  | timedOut
  | ran (b : Bool)
  | count (n : Nat)
  | panicked (text : String)
  | outcome (o : Outcome)
  | cell (bytes : Option Bytes)
  | noHost
  | noLab
  | noFeeds
  | gone

def Step.host? : Step → Option Nat
  | execute h | executeAndWait h | wait h _ _ | stepRunner h | idleRunner h | stepThreads h
  | idleThreads h | infeed h _ | outfeed h | write h _ _ | joined h => some h
  | endDeferred _ _ => none

def handle? (s : Scenario) (h : Nat) : Option HostHandle :=
  match s.hosts[h]? with
  | some (.ok handle) => some handle
  | _ => none

def status? (s : Scenario) (host execution : Nat) : Option Outcome :=
  (s.world.execution? host execution).bind Machine.Execution.outcome

def executionsOf (s : Scenario) (host : Nat) : List (Option Outcome) :=
  match s.world.hosts[host]? with
  | some h => h.executions.toList.map Machine.Execution.outcome
  | none => []

/-- What all executions together have come to: the error of the first that failed, once all have
ended. -/
def joinedStatus (outcomes : List (Option Outcome)) : Option Outcome :=
  if outcomes.any Option.isNone then none
  else some (match outcomes.findSome? fun o => match o with
      | some (.error e) => some e
      | _ => none with
    | some e => .error e
    | none => .ok ())

def onWorld (s : Scenario) (f : World Primitive Platform Work → World Primitive Platform Work) :
    Scenario := { s with world := f s.world }

def perform (s : Scenario) (changed : Platform × List (Machine.Effect Work)) : Scenario :=
  s.onWorld fun w =>
    ({ w with device := changed.1 } : World Primitive Platform Work).perform Platform.backend
      (changed.2.map .effect)

def drain (s : Scenario) : Scenario := s.onWorld (·.drainPools Platform.backend)

/-- Lets time pass until `done`, for at most `ms` milliseconds. -/
def waitFor (s : Scenario) (ms : Nat) (done : Scenario → Bool) : Scenario :=
  passTime (fun s => s.world.device.timers)
    (fun s timers => s.onWorld fun w => { w with device := { w.device with timers } })
    (fun s x => (s.perform (s.world.device.expire x)).drain) done
    (s.world.device.timers.now + ms) World.stepLimit s

/-- Lets a lab run one task. -/
def stepLab (s : Scenario) (runner : Option Nat) : Scenario × Reply :=
  match runner with
  | none => (s, .noLab)
  | some i =>
    match s.world.stepLab Platform.backend i with
    | (_, .notLab) => (s, .noLab)
    | (world, .idle) => ({ s with world }, .ran false)
    | (world, .ran) => ({ s with world }, .ran true)
    | (world, .panicked text) => ({ s with world }, .panicked text)

/-- Lets a lab run until no task is queued. -/
def idleLab (s : Scenario) (runner : Option Nat) : Scenario × Reply :=
  match runner with
  | none => (s, .noLab)
  | some i =>
    match s.world.idleLab Platform.backend i with
    | (_, _, .notLab) => (s, .noLab)
    | (world, _, .panicked text) => ({ s with world }, .panicked text)
    | (world, count, _) => ({ s with world }, .count count)

def execute (s : Scenario) (h : Nat) : Scenario :=
  s.onWorld (·.execute Platform.backend h)

/-- Carries out a step on a host that was built. -/
def stepOn (s : Scenario) (handle : HostHandle) : Step → Scenario × Reply
  | .execute h =>
    let s := s.execute h
    (s, .status ((executionsOf s h).getLast?.join))
  | .executeAndWait h =>
    let k := (s.executionsOf h).length
    let s := (s.execute h).drain
    let s := s.waitFor (wordSize - 1) fun s => (s.status? h k).isSome
    (s, .status (s.status? h k))
  | .wait h k ms =>
    let s := s.waitFor ms fun s => (s.status? h k).isSome
    match s.status? h k with
    | some o => (s, .status (some o))
    | none => (s, .timedOut)
  | .stepRunner _ => s.stepLab handle.runner
  | .idleRunner _ => s.idleLab handle.runner
  | .stepThreads _ => s.stepLab handle.threads
  | .idleThreads _ => s.idleLab handle.threads
  | .infeed h bytes =>
    if handle.options.feeds then (s.perform (s.world.device.putIn h bytes), .nothing)
    else (s, .noFeeds)
  | .outfeed h =>
    if handle.options.feeds then
      let s := s.perform (s.world.device.takeOut h, [])
      (s, .cell (((s.world.device.host? h).bind fun st => st.outfed.back?).join))
    else (s, .noFeeds)
  | .write h slice bytes =>
    let (p, o) := s.world.device.onArena h fun a => a.write slice bytes
    (s.perform (p, []), .outcome o)
  | .joined h => (s, .status (joinedStatus (s.executionsOf h)))
  | .endDeferred i o =>
    match s.world.device.endDeferred i o with
    | (p, some effects) => (s.perform (p, effects), .nothing)
    | (_, none) => (s, .gone)

/-- Carries out a step. -/
def step (s : Scenario) (t : Step) : Scenario × Reply :=
  let (s, reply) := match t.host? with
    | none => s.stepOn default t
    | some h =>
      match s.handle? h with
      | some handle => s.stepOn handle t
      | none => (s, .noHost)
  (s.drain, reply)

def takeTrace (s : Scenario) : Scenario × List String :=
  (s.onWorld fun w => { w with trace := #[] }, s.world.trace.toList)

def usesPool (d : ScenarioDraft) : Bool :=
  d.hosts.any fun h => isPool h.runner || isPool h.threads
where
  isPool : Option RunnerDraft → Bool
    | some (.pool _ _) => true
    | _ => false

def labCounts? (s : Scenario) (runner : Option Nat) : Option (Nat × Nat) :=
  match runner.bind fun i => s.world.runners[i]? with
  | some (.lab l) => some (l.pending, l.executed)
  | _ => none

end Scenario

end OpFlow
