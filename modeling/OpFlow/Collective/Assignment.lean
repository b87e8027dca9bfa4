import OpFlow.Buffer.Slice
import OpFlow.Fault

/-!
Device assignments: which device runs which replica of which computation. The devices fill a grid of
replicas by computations row by row, without repetition, so the grid and the list of devices
determine each other.
-/
namespace OpFlow

structure LogicalId where
  replica : Nat
  computation : Nat
  deriving DecidableEq, Repr, Inhabited

structure DeviceAssignment where
  replicas : Nat
  computations : Nat
  devices : List DeviceId
  deriving DecidableEq, Repr, Inhabited

namespace DeviceAssignment

def firstRepeated? (seen : List DeviceId) : List DeviceId → Option DeviceId
  | [] => none
  | d :: ds => if seen.contains d then some d else firstRepeated? (d :: seen) ds

/-- The grid of these devices, row by row. The size of the grid is computed as a machine word. -/
def create (replicas computations : Nat) (devices : List DeviceId) :
    Except Fault DeviceAssignment :=
  if replicas = 0 ∨ computations = 0 then
    .error (.error (.invalidArgument
      "device assignment needs at least one replica and one computation"))
  else if wordSize ≤ replicas * computations then .error .overflow
  else if devices.length ≠ replicas * computations then
    .error (.error (.invalidArgument ("device assignment of " ++ toString replicas ++ "x" ++
      toString computations ++ " got " ++ toString devices.length ++ " devices")))
  else match firstRepeated? [] devices with
    | some d => .error (.error (.invalidArgument
        ("device " ++ d.display ++ " appears twice in the assignment")))
    | none => .ok ⟨replicas, computations, devices⟩

def deviceWidth : Nat := 8

/-- One computation per replica, on devices numbered from zero. The numbers are signed words, so
there are no devices for a count that is none. -/
def replicated (replicas : Nat) : Except Fault DeviceAssignment :=
  let count := if replicas < wordSize / 2 then replicas else 0
  if memoryLimit ≤ count * deviceWidth then .error .capacity
  else create replicas 1 ((List.range count).map fun n => ⟨Int.ofNat n⟩)

def get? (a : DeviceAssignment) (replica computation : Nat) : Option DeviceId :=
  if replica < a.replicas ∧ computation < a.computations then
    a.devices[replica * a.computations + computation]?
  else none

/-- The device at a place, whose index is computed with words. -/
def getOnWords (a : DeviceAssignment) (replica computation : Nat) :
    Except Fault (Option DeviceId) :=
  if a.replicas ≤ replica ∨ a.computations ≤ computation then .ok none
  else do
    let row ← Word.mul replica a.computations
    return a.devices[← Word.add row computation]?

def unassigned (d : DeviceId) : Error :=
  .configuration ("device " ++ d.display ++ " is not in the device assignment")

def logicalId (a : DeviceAssignment) (d : DeviceId) : Except Error LogicalId :=
  match a.devices.idxOf? d with
  | some i => .ok ⟨i / a.computations, i % a.computations⟩
  | none => .error (unassigned d)

def replicaOf (a : DeviceAssignment) (d : DeviceId) : Except Error Nat :=
  LogicalId.replica <$> a.logicalId d

def partitionOf (a : DeviceAssignment) (d : DeviceId) : Except Error Nat :=
  LogicalId.computation <$> a.logicalId d

def describe (a : DeviceAssignment) : String :=
  "DeviceAssignment(" ++ toString a.replicas ++ "x" ++ toString a.computations ++ ": " ++
    Text.bracketed (a.devices.map DeviceId.describe) ++ ")"

theorem get?_eq_none_of_replicas_le {a : DeviceAssignment} {r c : Nat} (h : a.replicas ≤ r) :
    a.get? r c = none := by
  simp [get?]; omega

theorem get?_eq_none_of_computations_le {a : DeviceAssignment} {r c : Nat}
    (h : a.computations ≤ c) : a.get? r c = none := by
  simp [get?]; omega

end DeviceAssignment

end OpFlow
