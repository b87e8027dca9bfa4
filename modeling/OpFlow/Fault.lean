import OpFlow.Buffer.Slice
import OpFlow.Error

/-!
Faults: why something ended without a value. Most things fail by an error, which their caller gets;
user code, and sizes that no machine has, end in a panic instead, which only whoever started them
catches.
-/
namespace OpFlow

inductive Fault
  | error (e : Error)
  | panic (text : String)
  deriving DecidableEq, Repr, Inhabited

namespace Fault

def overflow : Fault := panic "attempt to multiply with overflow"

def capacity : Fault := panic "capacity overflow"

end Fault

/-! ### Arithmetic of words, which panics where it has no answer -/

namespace Word

variable {a b : Nat}

def add (a b : Nat) : Except Fault Nat :=
  if wordSize ≤ a + b then .error (.panic "attempt to add with overflow") else .ok (a + b)

def mul (a b : Nat) : Except Fault Nat := if wordSize ≤ a * b then .error .overflow else .ok (a * b)

def div (a b : Nat) : Except Fault Nat :=
  if b = 0 then .error (.panic "attempt to divide by zero") else .ok (a / b)

def rem (a b : Nat) : Except Fault Nat :=
  if b = 0 then .error (.panic "attempt to calculate the remainder with a divisor of zero")
  else .ok (a % b)

theorem add_eq (h : a + b < wordSize) : add a b = .ok (a + b) := if_neg (Nat.not_le_of_lt h)

theorem mul_eq (h : a * b < wordSize) : mul a b = .ok (a * b) := if_neg (Nat.not_le_of_lt h)

theorem div_eq (h : 0 < b) : div a b = .ok (a / b) := if_neg (Nat.ne_of_gt h)

theorem rem_eq (h : 0 < b) : rem a b = .ok (a % b) := if_neg (Nat.ne_of_gt h)

end Word

end OpFlow
