import OpFlow.Async.Network
import OpFlow.Buffer.Slice

/-!
A dialogue with a network of integers of 64 bits: values are made, derived, joined and settled one
request at a time, and each request is answered by what it made or what it found.
-/
namespace OpFlow.Async

inductive Request
  | promise
  | ready (value : Int)
  | failed (error : Error)
  | share (of : Nat)
  | map (of : Nat) (factor offset : Int)
  | atLeast (of : Nat) (least : Int)
  | join (of : List Nat)
  | joinEvents (of : List Nat)
  | happened
  | followEvent (of : Nat) (action : Action Int)
  | perform (action : Action Int)
  | same (a b : Nat)
  | sameEvent (a b : Nat)
  | wait (of : Nat)
  | state (of : Nat)
  | describe (of : Nat)
  | describeEvent (of : Nat)
  | describePromise (of : Nat)

inductive Reply
  | nothing
  | number (n : Nat)
  | truth (b : Bool)
  | text (t : String)
  | outcome (r : Option (Except Error Int))
  | state (r : Option (Except Error Int))

def wrap (n : Int) : Int := Int.bmod n wordSize

def describeResult (r : Option (Except Error String)) : String :=
  match r with
  | none => "AsyncValue(<pending>)"
  | some (.ok v) => "AsyncValue(" ++ v ++ ")"
  | some (.error e) => "AsyncValue(<error: " ++ e.display ++ ">)"

def onValues (f : Int → Except Error Int) : Content Int → Result Int
  | .value x => (f x).map .value
  | .done => .ok .done

def made (n : Network Int) (a : Action Int) : Network Int × Reply :=
  (n.perform a, .number n.handles.size)

def madeEvent (n : Network Int) (a : Action Int) : Network Int × Reply :=
  (n.perform a, .number n.eventHandles.size)

/-- Carries out one request. -/
def answer (n : Network Int) : Request → Network Int × Reply
  | .promise => made n .promise
  | .ready v => made n (.settled (.ok v))
  | .failed e => made n (.settled (.error e))
  | .share h => made n (.share h)
  | .map h factor offset =>
    made n (.derive (.value h) (onValues fun x => .ok (wrap (wrap (x * factor) + offset))))
  | .atLeast h least =>
    made n (.derive (.value h) (onValues fun x =>
      if x < least then
        .error (.invalidArgument ("value " ++ toString x ++ " below " ++ toString least))
      else .ok x))
  | .join hs => madeEvent n (.join (hs.map .value))
  | .joinEvents hs => madeEvent n (.join (hs.map .event))
  | .happened => madeEvent n (.join [])
  | .followEvent h a => (n.perform (.followEvent h a), .nothing)
  | .perform a => (n.perform a, .nothing)
  | .same a b => (n, .truth (n.handles[a]? == n.handles[b]?))
  | .sameEvent a b => (n, .truth (n.eventHandles[a]? == n.eventHandles[b]?))
  | .wait h => (n, .outcome (n.result? h))
  | .state h => (n, .state (n.result? h))
  | .describe h => (n, .text (describeResult ((n.result? h).map fun r => r.map toString)))
  | .describeEvent h =>
    (n, .text (describeResult ((n.eventResult? h).map fun r => r.map fun _ => "()")))
  | .describePromise h =>
    if n.promises.contains h then
      (n, .text (Text.record "Promise" [("pending", Text.boolean true)]))
    else (n, .nothing)

end OpFlow.Async
