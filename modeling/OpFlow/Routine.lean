import OpFlow.Buffer.Arena
import OpFlow.Fault

/-!
Routines: the user code that kernels and custom calls run. A routine changes a state step by step
and may stop early, by an error or by a panic; what it changed until then stays changed.
-/
namespace OpFlow

abbrev Routine (σ α : Type) := ExceptT Fault (StateM σ) α

namespace Routine

variable {σ α : Type}

def runOn (r : Routine σ α) (s : σ) : σ × Except Fault α :=
  let (ending, s) := (ExceptT.run r).run s
  (s, ending)

def fail (e : Error) : Routine σ α := throw (.error e)

def panic (text : String) : Routine σ α := throw (.panic text)

def lift (r : Except Error α) : Routine σ α :=
  match r with
  | .ok a => pure a
  | .error e => fail e

def byteAt (bytes : Bytes) (i : Nat) : Routine σ UInt8 :=
  match bytes[i]? with
  | some b => pure b
  | none => fail (.invalidArgument ("index " ++ toString i ++ " out of range"))

end Routine

end OpFlow
