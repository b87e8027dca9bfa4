import OpFlow.Identity

/-!
Errors: every failure is one value that says what kind it is, what happened, which operation it
belongs to, and what caused it. Attribution never replaces an earlier one, so an error keeps the
innermost operation that failed.
-/
namespace OpFlow

inductive ErrorKind
  | configuration
  | lookup
  | resourceExhausted
  | execution
  | rendezvousTimeout
  | internalInvariantViolation
  | invalidArgument
  | unavailable
  deriving DecidableEq, Repr, Inhabited

inductive Recoverability
  | transient
  | permanent
  | unknown
  deriving DecidableEq, Repr

namespace ErrorKind

def all : List ErrorKind :=
  [configuration, lookup, resourceExhausted, execution, rendezvousTimeout,
    internalInvariantViolation, invalidArgument, unavailable]

def display : ErrorKind → String
  | configuration => "ConfigurationError"
  | lookup => "LookupError"
  | resourceExhausted => "ResourceExhaustion"
  | execution => "ExecutionError"
  | rendezvousTimeout => "RendezvousTimeout"
  | internalInvariantViolation => "InternalInvariantViolation"
  | invalidArgument => "InvalidArgument"
  | unavailable => "Unavailable"

def recoverability : ErrorKind → Recoverability
  | resourceExhausted | rendezvousTimeout | unavailable => .transient
  | configuration | lookup | invalidArgument | internalInvariantViolation => .permanent
  | execution => .unknown

def isRetryable (k : ErrorKind) : Bool := k.recoverability = .transient

theorem mem_all (k : ErrorKind) : k ∈ all := by cases k <;> decide

end ErrorKind

def Recoverability.display : Recoverability → String
  | transient => "Transient"
  | permanent => "Permanent"
  | unknown => "Unknown"

/-- The operation an error belongs to, as far as it is known. -/
structure ErrorContext where
  op : Option String := none
  moduleName : Option String := none
  moduleId : Option Int := none
  deriving DecidableEq, Repr, Inhabited

namespace ErrorContext

def ofInfo (i : OpInfo) : ErrorContext := ⟨some i.name, some i.moduleName, some i.moduleId⟩

def isEmpty (c : ErrorContext) : Bool :=
  c.op.isNone && c.moduleName.isNone && c.moduleId.isNone

@[simp] theorem isEmpty_ofInfo (i : OpInfo) : (ofInfo i).isEmpty = false := rfl

end ErrorContext

structure ErrorDetail where
  kind : ErrorKind
  message : Option String := none
  context : ErrorContext := {}
  deriving DecidableEq, Repr, Inhabited

/-- An error alone, one caused by another error, or one caused by a foreign failure, of which
only the text is kept. -/
inductive Error
  | plain (detail : ErrorDetail)
  | dueTo (detail : ErrorDetail) (cause : Error)
  | reported (detail : ErrorDetail) (cause : String)
  deriving DecidableEq, Repr, Inhabited

namespace Error

def detail : Error → ErrorDetail
  | plain d | dueTo d _ | reported d _ => d

def mapDetail (f : ErrorDetail → ErrorDetail) : Error → Error
  | plain d => plain (f d)
  | dueTo d c => dueTo (f d) c
  | reported d c => reported (f d) c

def kind (e : Error) : ErrorKind := e.detail.kind
def message (e : Error) : Option String := e.detail.message
def context (e : Error) : ErrorContext := e.detail.context

def cause? : Error → Option Error
  | dueTo _ c => some c
  | plain _ | reported _ _ => none

def ofKind (k : ErrorKind) : Error := plain { kind := k }

def withMessage (e : Error) (m : String) : Error :=
  e.mapDetail fun d => { d with message := some m }

def withContext (e : Error) (c : ErrorContext) : Error :=
  e.mapDetail fun d => { d with context := c }

def withCause (e : Error) (cause : Error) : Error := dueTo e.detail cause

def withForeignCause (e : Error) (text : String) : Error := reported e.detail text

/-- Names the operation the error belongs to, unless one is named already. -/
def attributedTo (e : Error) (i : OpInfo) : Error :=
  if e.context.isEmpty then e.withContext (.ofInfo i) else e

def of (k : ErrorKind) (m : String) : Error := plain { kind := k, message := some m }

def configuration (m : String) : Error := of .configuration m
def resourceExhausted (m : String) : Error := of .resourceExhausted m
def execution (m : String) : Error := of .execution m
def invalidArgument (m : String) : Error := of .invalidArgument m
def internal (m : String) : Error := of .internalInvariantViolation m

def notFound (what name : String) : Error := of .lookup (what ++ " '" ++ name ++ "' not found")

def promiseDropped : Error := of .unavailable "promise dropped without a value"

def panicked (text : String) : Error := execution ("operation panicked: " ++ text)

def isTimeout (e : Error) : Bool := e.kind = .rendezvousTimeout

/-- The one-line text: kind, message, and the operation with its module. -/
def display (e : Error) : String :=
  let said := match e.message with
    | some m => ": " ++ m
    | none => ""
  let at_ := match e.context.op with
    | some op =>
      let within := match e.context.moduleName with
        | some m => " in module " ++ m
        | none => ""
      " (op " ++ op ++ within ++ ")"
    | none => ""
  e.kind.display ++ said ++ at_

/-- The text of the direct cause. -/
def causeText : Error → Option String
  | plain _ => none
  | dueTo _ c => some c.display
  | reported _ t => some t

@[simp] theorem kind_withContext (e : Error) (c : ErrorContext) :
    (e.withContext c).kind = e.kind := by cases e <;> rfl

@[simp] theorem message_withContext (e : Error) (c : ErrorContext) :
    (e.withContext c).message = e.message := by cases e <;> rfl

@[simp] theorem context_withContext (e : Error) (c : ErrorContext) :
    (e.withContext c).context = c := by cases e <;> rfl

@[simp] theorem cause?_withContext (e : Error) (c : ErrorContext) :
    (e.withContext c).cause? = e.cause? := by cases e <;> rfl

@[simp] theorem kind_attributedTo (e : Error) (i : OpInfo) :
    (e.attributedTo i).kind = e.kind := by unfold attributedTo; split <;> simp

@[simp] theorem message_attributedTo (e : Error) (i : OpInfo) :
    (e.attributedTo i).message = e.message := by unfold attributedTo; split <;> simp

@[simp] theorem cause?_attributedTo (e : Error) (i : OpInfo) :
    (e.attributedTo i).cause? = e.cause? := by unfold attributedTo; split <;> simp

theorem context_attributedTo (e : Error) (i : OpInfo) :
    (e.attributedTo i).context = if e.context.isEmpty then .ofInfo i else e.context := by
  unfold attributedTo; split <;> simp

@[simp] theorem attributedTo_attributedTo (e : Error) (i j : OpInfo) :
    (e.attributedTo i).attributedTo j = e.attributedTo i := by
  have h : (e.attributedTo i).context.isEmpty = false := by
    rw [context_attributedTo]; split <;> simp_all
  rw [attributedTo, if_neg (by simp [h])]

end Error

/-- What an operation ends with. -/
abbrev Outcome := Except Error Unit

end OpFlow
