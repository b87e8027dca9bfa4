import OpFlow.Text.Quoted

/-!
Identities: the name under which an operation is reported, the runs of a program, and the devices
that take part in them.
-/
namespace OpFlow

/-- What an operation is called, and the module that owns it. Scheduling never looks at it. -/
structure OpInfo where
  name : String
  moduleName : String := ""
  moduleId : Int := 0
  deriving DecidableEq, Repr, Inhabited

namespace OpInfo

def display (i : OpInfo) : String :=
  if i.moduleName = "" then i.name else i.moduleName ++ "/" ++ i.name ++ "#" ++ toString i.moduleId

def describe (i : OpInfo) : String :=
  Text.record "ThunkInfo"
    [("op_name", Text.quoted i.name), ("module_name", Text.quoted i.moduleName),
      ("module_id", toString i.moduleId)]

theorem display_of_moduleName_eq {i : OpInfo} (h : i.moduleName = "") : i.display = i.name := by
  simp [display, h]

end OpInfo

structure RunId where
  number : Int
  deriving DecidableEq, Repr, Inhabited

namespace RunId

def display (r : RunId) : String := "run" ++ toString r.number

def describe (r : RunId) : String := "RunId(" ++ toString r.number ++ ")"

end RunId

/-- A device, numbered across all participants of a run. -/
structure DeviceId where
  number : Int
  deriving DecidableEq, Repr, Inhabited

namespace DeviceId

def display (d : DeviceId) : String := "D" ++ toString d.number

def describe (d : DeviceId) : String := "GlobalDeviceId(" ++ toString d.number ++ ")"

end DeviceId

end OpFlow
