import OpFlow.Device
import OpFlow.Registry
import OpFlow.Routine

/-!
Custom calls: operations that call a handler by its name. A handler reaches the buffers of its frame
and what the device offers. Whatever error it reports comes out as an execution error that names the
target.
-/
namespace OpFlow

/-- What a handler sees of one call. -/
structure CallFrame where
  target : String
  config : String
  operands : List Slice
  results : List Slice
  ordinal : Int
  stream : Option Stream := none
  context : Option ForeignContext := none
  deriving DecidableEq, Repr, Inhabited

structure CallState where
  arena : Arena
  allocator : Option Allocator := none
  deriving Repr, Inhabited

abbrev Handler := CallFrame → Routine CallState Unit

namespace CallFrame

def operand (f : CallFrame) (i : Nat) : Routine CallState Bytes := do
  match f.operands[i]? with
  | some s => Routine.lift ((← get).arena.read s)
  | none => Routine.fail (.invalidArgument ("custom call has no operand " ++ toString i))

/-- A result that can be written. -/
def result (f : CallFrame) (i : Nat) : Routine CallState Slice := do
  match f.results[i]? with
  | some s =>
    let _ ← Routine.lift ((← get).arena.read s)
    return s
  | none => Routine.fail (.invalidArgument ("custom call has no result " ++ toString i))

/-- Replaces a whole result, which must have the size of the new bytes. -/
def setResult (f : CallFrame) (i : Nat) (bytes : Bytes) : Routine CallState Unit := do
  let s ← f.result i
  if bytes.length ≠ s.size then Routine.fail (.invalidArgument "result size mismatch")
  else
    let arena ← Routine.lift ((← get).arena.write s bytes)
    modify fun st => { st with arena }

def setFirstByte (f : CallFrame) (i : Nat) (b : UInt8) : Routine CallState Unit := do
  let s ← f.result i
  let _ ← Routine.byteAt (← Routine.lift ((← get).arena.read s)) 0
  let arena ← Routine.lift ((← get).arena.modify s fun bytes => bytes.set 0 b)
  modify fun st => { st with arena }

/-- Memory of the device that the call runs on. -/
def allocate (f : CallFrame) (size : Nat) : Routine CallState Memory := do
  match (← get).allocator with
  | none => Routine.fail (.configuration "no allocator")
  | some a =>
    let (a, granted) := a.allocate f.ordinal size
    modify fun st => { st with allocator := some a }
    match granted with
    | .ok m => return m
    | .error fault => throw fault

def describe (f : CallFrame) : String :=
  Text.openRecord "CustomCallFrame"
    [("target_name", Text.quoted f.target),
      ("operands", Text.bracketed (f.operands.map Slice.describe)),
      ("results", Text.bracketed (f.results.map Slice.describe))]

end CallFrame

namespace Handler

def textBytes (s : String) : Bytes := s.toUTF8.toList

/-- A sample of handlers, one for each thing that a handler may do with its frame and its state. -/
def builtin : Registry Handler where
  entries := [
    ("noop", fun _ => pure ()),
    ("scale", fun f => do
      match f.context with
      | none => Routine.fail (.configuration "no ffi context")
      | some c =>
        let factor ← Routine.lift (ForeignContext.lookup c.u8 "u8")
        let bytes ← f.operand 0
        f.setResult 0 (bytes.map (· * UInt8.ofNat factor))),
    ("ordinal", fun f => f.setResult 0 (.ofInt 4 f.ordinal)),
    ("stream", fun f =>
      match f.stream with
      | none => Routine.fail (.configuration "no stream")
      | some s => f.setResult 0 (.ofInt 4 s.ordinal)),
    ("alloc", fun f => do
      let size ← Routine.byteAt (← f.operand 0) 0
      let m ← f.allocate size.toNat
      if f.config ≠ "keep" then
        modify fun st => { st with allocator := st.allocator.map (·.release m) }
      f.setFirstByte 0 size),
    ("config", fun f => f.setResult 0 (textBytes f.config)),
    ("target", fun f => f.setResult 0 (textBytes f.target)),
    ("arity", fun f =>
      f.setResult 0 [UInt8.ofNat f.operands.length, UInt8.ofNat f.results.length]),
    ("bad_operand", fun f => do let _ ← f.operand f.operands.length),
    ("bad_result", fun f => do let _ ← f.result f.results.length),
    ("broken", fun _ => Routine.fail (.invalidArgument "bad operand layout")),
    ("exec_fail", fun _ => Routine.fail (.execution "inner text")),
    ("exec_fail_sourced", fun _ =>
      Routine.fail ((Error.execution "inner text").withCause (.internal "root"))),
    ("exec_fail_as", fun _ =>
      Routine.fail ((Error.execution "inner text").attributedTo { name := "inner.op" })),
    ("broken_as", fun _ =>
      Routine.fail ((Error.internal "inner text").attributedTo { name := "inner.op" })),
    ("describe", fun f => Routine.fail (.invalidArgument f.describe)),
    ("panic", fun _ => Routine.panic "handler panicked")]

/-- A sample of what a process may have registered for all its runs. -/
def shared : Registry Handler where
  entries := [("global_noop", fun _ => pure ())]

def find (handlers : Registry Handler) (target : String) : Except Error Handler :=
  handlers.find "custom call target" target

/-- What a call of `target` reports when its handler failed with `e`. An execution error keeps its
cause and its context under the new message; any other error becomes the cause. -/
def wrapError (target : String) (e : Error) : Error :=
  let message := "custom call '" ++ target ++ "' failed"
  if e.kind = .execution then e.withMessage message else (Error.execution message).withCause e

end Handler

def describeHandlers {α : Type} (handlers : Registry α) : String :=
  Text.record "CustomCallRegistry" [("handlers", toString handlers.size)]

end OpFlow
