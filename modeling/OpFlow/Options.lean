import OpFlow.Collective.Assignment
import OpFlow.CustomCall
import OpFlow.Kernel

/-!
Run options: what a caller offers for one run of a program. Every part may be left out; it is missed
only by programs that need it.
-/
namespace OpFlow

structure RunOptions where
  ordinal : Option Int := none
  run : Option RunId := none
  assignment : Option DeviceAssignment := none
  /-- Whether there is a transport for collective exchanges. -/
  transport : Bool := false
  stream : Option Stream := none
  allocator : Option Allocator := none
  context : Option ForeignContext := none
  /-- The handlers of custom calls, in place of those known to all runs. -/
  handlers : Option (Registry Handler) := none
  kernels : Option (Registry Kernel) := none
  /-- Whether there is a pair of feeds. -/
  feeds : Bool := false
  /-- Whether kernels have a runner for their threads. -/
  threadRunner : Bool := false
  /-- Whether operations have a runner. -/
  runner : Bool := false
  deriving Inhabited

namespace RunOptions

/-- The ordinal of the device: the given one, else that of the stream, else zero. -/
def resolveOrdinal (o : RunOptions) : Except Error Int :=
  match o.ordinal, o.stream with
  | some n, some s =>
    if n ≠ s.ordinal then
      .error (.configuration ("device ordinal " ++ toString n ++
        " disagrees with stream device ordinal " ++ toString s.ordinal))
    else .ok n
  | some n, none => .ok n
  | none, some s => .ok s.ordinal
  | none, none => .ok 0

/-- The options in words; a stream has no text that could be repeated. -/
def describe? (o : RunOptions) : Option String :=
  if o.stream.isSome then none
  else some (Text.record "RunOptions"
    [("device_ordinal", Text.optional (o.ordinal.map toString)),
      ("run_id", Text.optional (o.run.map RunId.describe)),
      ("device_assignment", Text.optional (o.assignment.map DeviceAssignment.describe)),
      ("collectives", Text.boolean o.transport),
      ("stream", Text.optional none),
      ("allocator", Text.boolean o.allocator.isSome),
      ("ffi_context", Text.boolean o.context.isSome),
      ("host_kernels", Text.boolean o.kernels.isSome),
      ("xfeed", Text.boolean o.feeds),
      ("task_runner", Text.boolean o.runner)])

end RunOptions

/-- Run options as they are written down: the assignment is not checked yet, and of registries it
only says whether the sample routines are offered. -/
structure OptionsDraft where
  ordinal : Option Int := none
  run : Option RunId := none
  /-- Replicas, computations and devices. -/
  assignment : Option (Nat × Nat × List DeviceId) := none
  transport : Bool := false
  stream : Option Int := none
  /-- An allocator, and its limit if it has one. -/
  allocator : Option (Option Nat) := none
  context : Option ForeignContext := none
  handlers : Bool := false
  kernels : Bool := false
  feeds : Bool := false
  deriving Repr, Inhabited

namespace OptionsDraft

/-- The options, with runners as given. -/
def build (d : OptionsDraft) (runner threadRunner : Bool) :
    Except Fault RunOptions := do
  let assignment ← d.assignment.mapM fun a => DeviceAssignment.create a.1 a.2.1 a.2.2
  return {
    ordinal := d.ordinal
    run := d.run
    assignment
    transport := d.transport
    stream := d.stream.map fun ordinal => ⟨0, ordinal⟩
    allocator := d.allocator.map fun limit => { limit }
    context := d.context
    handlers := if d.handlers then some Handler.builtin else none
    kernels := if d.kernels then some Kernel.builtin else none
    feeds := d.feeds
    threadRunner
    runner }

end OptionsDraft

end OpFlow
