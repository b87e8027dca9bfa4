import OpFlow.Kernel.Grid
import OpFlow.Registry
import OpFlow.Routine

/-!
Host kernels: routines over an arena that run once for each thread of a grid. A kernel reaches its
buffers only through the arguments and results of its frame.
-/
namespace OpFlow

/-- What a kernel sees of one launch: its thread, the whole grid, and its buffers. -/
structure KernelFrame where
  thread : Grid
  grid : Grid
  arguments : List Slice
  results : List Slice
  deriving DecidableEq, Repr, Inhabited

abbrev Kernel := KernelFrame → Routine Arena Unit

namespace KernelFrame

def argument (f : KernelFrame) (i : Nat) : Routine Arena Bytes := do
  match f.arguments[i]? with
  | some s => Routine.lift ((← get).read s)
  | none => Routine.fail (.invalidArgument ("kernel has no argument " ++ toString i))

/-- A result that can be written. -/
def result (f : KernelFrame) (i : Nat) : Routine Arena Slice := do
  match f.results[i]? with
  | some s =>
    let _ ← Routine.lift ((← get).read s)
    return s
  | none => Routine.fail (.invalidArgument ("kernel has no result " ++ toString i))

def argumentByte (f : KernelFrame) (i k : Nat) : Routine Arena UInt8 := do
  Routine.byteAt (← f.argument i) k

def updateByte (f : KernelFrame) (i k : Nat) (g : UInt8 → UInt8) : Routine Arena Unit := do
  let s ← f.result i
  let b ← Routine.byteAt (← Routine.lift ((← get).read s)) k
  set (← Routine.lift ((← get).modify s fun bytes => bytes.set k (g b)))

def setByte (f : KernelFrame) (i k : Nat) (b : UInt8) : Routine Arena Unit :=
  f.updateByte i k fun _ => b

def setResult (f : KernelFrame) (i : Nat) (bytes : Bytes) : Routine Arena Unit := do
  let s ← f.result i
  if bytes.length ≠ s.size then Routine.fail (.invalidArgument "result size mismatch")
  else set (← Routine.lift ((← get).write s bytes))

def describe (f : KernelFrame) : String :=
  Text.openRecord "KernelCallFrame"
    [("thread", f.thread.describe), ("thread_dim", f.grid.describe),
      ("arguments", Text.bracketed (f.arguments.map Slice.describe)),
      ("results", Text.bracketed (f.results.map Slice.describe))]

end KernelFrame

namespace Kernel

def byte (n : Nat) : UInt8 := UInt8.ofNat n

/-- A sample of kernels, one for each thing that a thread may do with its frame or how it may end. -/
def builtin : Registry Kernel where
  entries := [
    ("inc", fun f => do f.setByte 0 0 ((← f.argumentByte 0 0) + 1)),
    ("double", fun f => do f.setByte 0 0 (2 * (← f.argumentByte 0 0))),
    ("bump", fun f => f.updateByte 0 0 (· + 1)),
    ("less_than", fun f => do
      let a ← f.argumentByte 0 0
      let b ← f.argumentByte 1 0
      f.setByte 0 0 (if a < b then 1 else 0)),
    ("parity", fun f => do
      let a ← f.argumentByte 0 0
      f.setResult 0 (.ofNat 4 (a.toNat % 2))),
    ("sum", fun f => do
      let mut total : UInt8 := 0
      for i in List.range f.arguments.length do
        total := total + (← f.argumentByte i 0)
      for i in List.range f.results.length do
        f.setByte i 0 total),
    ("inc_at", fun f => do
      f.setByte 0 f.thread.x ((← f.argumentByte 0 f.thread.x) + 1)),
    ("fill", fun f =>
      f.setByte 0 (f.thread.x + f.grid.x * (f.thread.y + f.grid.y * f.thread.z))
        (byte (f.thread.x + 10 * f.thread.y + 100 * f.thread.z))),
    ("hash", fun f =>
      f.updateByte 0 0 fun b =>
        b * 31 + byte (f.thread.x + 3 * f.thread.y + 7 * f.thread.z + 1)),
    ("fail", fun _ => Routine.fail (.execution "kernel failed")),
    ("exhausted", fun _ => Routine.fail (.resourceExhausted "no scratch")),
    ("fail_from", fun f => do
      if (← f.argumentByte 0 0).toNat ≤ f.thread.x then
        Routine.fail (.execution ("thread " ++ toString f.thread.x ++ "," ++
          toString f.thread.y ++ "," ++ toString f.thread.z ++ " failed"))
      else f.updateByte 0 0 (· + 1)),
    ("panic", fun _ => Routine.panic "kernel panicked"),
    ("panic_at_one", fun f =>
      if f.thread.x = 1 then Routine.panic "kernel panicked" else f.updateByte 0 0 (· + 1)),
    ("bad_argument", fun f => do let _ ← f.argument f.arguments.length),
    ("bad_result", fun f => do let _ ← f.result f.results.length),
    ("describe", fun f => Routine.fail (.execution f.describe))]

def find (kernels : Registry Kernel) (name : String) : Except Error Kernel :=
  kernels.find "host kernel" name

end Kernel

def describeKernels {α : Type} (kernels : Registry α) : String :=
  Text.record "HostKernelRegistry"
    [("kernels", Text.bracketed (kernels.names.map Text.quoted))]

end OpFlow
