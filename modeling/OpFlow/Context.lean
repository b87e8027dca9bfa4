import OpFlow.Operation
import OpFlow.Options

/-!
Run contexts: what the operations of one run may use. A context made for a program holds exactly the
parts that some operation of the program needs, at whatever depth, and cannot be made when such a
part is not offered. An operation that asks for a part that is not there fails.
-/
namespace OpFlow

/-- The place of a run among the participants of collective exchanges. -/
structure CollectiveContext where
  run : RunId
  ordinal : Int
  device : DeviceId
  assignment : DeviceAssignment
  deriving DecidableEq, Repr, Inhabited

namespace CollectiveContext

/-- The place that the options give. The device of the run must be in the assignment. -/
def create (o : RunOptions) : Except Error CollectiveContext := do
  let ordinal ← o.resolveOrdinal
  let some assignment := o.assignment
    | throw (.configuration "device assignment is required for collective operations")
  let some run := o.run
    | throw (.configuration "run id is required for collective operations")
  if !o.transport then
    throw (.configuration "collectives transport is required for collective operations")
  let device : DeviceId := ⟨ordinal⟩
  let _ ← assignment.logicalId device
  return { run, ordinal, device, assignment }

def describe (c : CollectiveContext) : String :=
  Text.openRecord "CollectiveExecuteParams"
    [("run_id", c.run.describe), ("local_device_ordinal", toString c.ordinal),
      ("global_device_id", c.device.describe), ("device_assignment", c.assignment.describe)]

end CollectiveContext

/-- What custom calls of a run may use. -/
structure CallContext where
  ordinal : Int
  stream : Option Stream
  allocator : Option Allocator
  context : Option ForeignContext
  handlers : Registry Handler
  deriving Inhabited

namespace CallContext

/-- `shared` are the handlers that the process has registered for all runs. -/
def create (o : RunOptions) (shared : Registry Handler := Handler.shared) :
    Except Error CallContext := do
  return {
    ordinal := ← o.resolveOrdinal
    stream := o.stream
    allocator := o.allocator
    context := o.context
    handlers := o.handlers.getD shared }

def describe (c : CallContext) : String :=
  Text.openRecord "CustomCallExecuteParams"
    [("device_ordinal", toString c.ordinal), ("stream", Text.optional none),
      ("allocator", Text.optional (c.allocator.map Allocator.describe)),
      ("ffi_context", Text.optional (c.context.map ForeignContext.describe))]

end CallContext

/-- A part of a context that may be missing. -/
inductive Part
  | kernels
  | feeds
  | collective
  | customCall
  deriving DecidableEq, Repr

namespace Part

/-- Operations of this kind ask for the part. -/
def isFor : Part → OpKind → Bool
  | kernels, k => k == .kernel
  | feeds, k => k == .infeed || k == .outfeed
  | collective, k => k.needsDevices
  | customCall, k => k == .customCall

/-- What an operation fails with that asks for a part which is not there. -/
def unset : Part → Error
  | kernels => .configuration "host kernel resolver is not set"
  | feeds => .configuration "xfeed manager is not set"
  | collective => .configuration "collective execute params are not set"
  | customCall => .configuration "custom call execute params are not set"

end Part

structure RunContext where
  kernels : Option (Registry Kernel) := none
  feeds : Bool := false
  threadRunner : Bool := false
  runner : Bool := false
  collective : Option CollectiveContext := none
  customCall : Option CallContext := none
  deriving Inhabited

namespace RunContext

def requireKernels (c : RunContext) : Except Error (Registry Kernel) :=
  match c.kernels with
  | some k => .ok k
  | none => .error Part.kernels.unset

def requireFeeds (c : RunContext) : Except Error Unit :=
  if c.feeds then .ok () else .error Part.feeds.unset

def requireCollective (c : RunContext) : Except Error CollectiveContext :=
  match c.collective with
  | some p => .ok p
  | none => .error Part.collective.unset

def requireCustomCall (c : RunContext) : Except Error CallContext :=
  match c.customCall with
  | some p => .ok p
  | none => .error Part.customCall.unset

def whenNeeded {α : Type} (needed : Bool) (make : Except Error α) : Except Error (Option α) :=
  if needed then some <$> make else .ok none

/-- The context that a program needs, out of what the options offer. -/
def forProgram {α : Type} [Leaf α] (o : RunOptions) (p : Program α)
    (shared : Registry Handler := Handler.shared) : Except Error RunContext := do
  let collective ← whenNeeded (p.containsKind (Part.isFor .collective)) (CollectiveContext.create o)
  let customCall ← whenNeeded (p.containsKind (Part.isFor .customCall)) (CallContext.create o shared)
  let usesFeeds := p.containsKind (Part.isFor .feeds)
  if usesFeeds && !o.feeds then
    throw (.configuration "program uses infeed/outfeed but no xfeed manager was provided")
  let kernels ← whenNeeded (p.containsKind (Part.isFor .kernels))
    (match o.kernels with
    | some k => .ok k
    | none => .error
        (.configuration "program launches host kernels but no resolver was provided"))
  return {
    kernels, feeds := usesFeeds, threadRunner := o.threadRunner, runner := o.runner
    collective, customCall }

/-- A context put together by hand: everything offered, and the collective and custom call parts
if they are asked for. -/
def assemble (o : RunOptions) (withCollective withCustomCall : Bool)
    (shared : Registry Handler := Handler.shared) : Except Error RunContext := do
  let collective ← whenNeeded withCollective (CollectiveContext.create o)
  let customCall ← whenNeeded withCustomCall (CallContext.create o shared)
  return {
    kernels := o.kernels, feeds := o.feeds, threadRunner := o.threadRunner, runner := o.runner
    collective, customCall }

/-- The context in words, over an arena; not of a run with a stream. -/
def describe (c : RunContext) (arena : Arena) : String :=
  Text.record "ExecuteParams"
    [("buffer_allocations", arena.describe),
      ("host_kernels", Text.boolean c.kernels.isSome),
      ("xfeed", Text.boolean c.feeds),
      ("intra_op_threadpool", Text.boolean c.threadRunner),
      ("task_runner", Text.boolean c.runner),
      ("collective_params", Text.optional (c.collective.map CollectiveContext.describe)),
      ("custom_call_params", Text.optional (c.customCall.map CallContext.describe))]

end RunContext

end OpFlow
