import OpFlow.Collective.Transport

/-!
Dialogues with a rendezvous and with a transport: arrivals are numbered, and time passes only while
somebody waits.
-/
namespace OpFlow

/-- How long a wait lasts at most, in milliseconds. -/
def patience : Nat := 5000

/-- Lets time pass until `done` holds or the clock would pass `stop`, at most `limit` deadlines.
All timers that are due at one reading of the clock fire before the next look. -/
def passTime {σ τ : Type} (timers : σ → Timers τ) (setTimers : σ → Timers τ → σ)
    (expire : σ → τ → σ) (done : σ → Bool) (stop : Nat) : Nat → σ → σ
  | 0, s => s
  | limit + 1, s =>
    if done s then s
    else match (timers s).nextDeadline? with
      | none => s
      | some deadline =>
        if stop < deadline then setTimers s ((timers s).readClock stop)
        else
          let now := max (timers s).now deadline
          let fired := (timers s).firedBy now
          let s := setTimers s { (timers s).readClock now with batch := [] }
          let s := fired.foldl (fun s e => expire s e.callback) s
          passTime timers setTimers expire done stop limit s

structure RendezvousSession where
  rendezvous : Rendezvous Bytes Unit
  timers : Timers (RendezvousKey × Nat) := {}
  /-- The cell of each arrival, or the error of one that was rejected. -/
  arrivals : Array (Except Error Nat) := #[]

namespace RendezvousSession

def ofTimeout (timeout : Nat) (name : String := "oracle") : RendezvousSession :=
  { rendezvous := { name, timeout } }

def arrive (s : RendezvousSession) (key : RendezvousKey) (rank : Nat) (value : Bytes) :
    RendezvousSession :=
  match s.rendezvous.arrive key rank value with
  | (rendezvous, .rejected e) =>
    { s with rendezvous, arrivals := s.arrivals.push (.error e) }
  | (rendezvous, .opened c) =>
    { rendezvous, timers := (s.timers.schedule rendezvous.timeout (key, c)).1,
      arrivals := s.arrivals.push (.ok c) }
  | (rendezvous, .joined c) | (rendezvous, .completed c _) =>
    { s with rendezvous, arrivals := s.arrivals.push (.ok c) }

/-- What an arrival has come to. -/
def valueOf (s : RendezvousSession) : Except Error Nat → Option (Except Error (List Bytes))
  | .error e => some (.error e)
  | .ok c => s.rendezvous.result? c

def values (s : RendezvousSession) : List (Option (Except Error (List Bytes))) :=
  s.arrivals.toList.map s.valueOf

def isSettled (s : RendezvousSession) (i : Nat) : Bool :=
  (s.arrivals[i]?.bind s.valueOf).isSome

def wait (s : RendezvousSession) (i : Nat) : RendezvousSession :=
  passTime timers (fun s t => { s with timers := t })
    (fun s x => { s with rendezvous := (s.rendezvous.expire x.1 x.2).1 })
    (fun s => s.isSettled i) (s.timers.now + patience) (s.timers.waiting.length + 1) s

/-- Whether two arrivals share a cell. A rejected arrival shares its cell with no other. -/
def same (s : RendezvousSession) (i j : Nat) : Bool :=
  match s.arrivals[i]?, s.arrivals[j]? with
  | some (.ok c), some (.ok d) => c == d
  | some (.error _), some (.error _) => i == j
  | _, _ => false

end RendezvousSession

structure Participation where
  exchange : Exchange
  rank : Nat
  cell : Nat

structure TransportSession where
  transport : Transport Unit
  timers : Timers Expiry := {}
  arrivals : Array (Except Error Participation) := #[]

namespace TransportSession

def ofTimeout (timeout : Nat) : TransportSession := { transport := .ofTimeout timeout }

def arrive (s : TransportSession) (e : Exchange) (key : RendezvousKey) (rank : Nat)
    (blocks : List Bytes) : TransportSession :=
  match s.transport.arrive e key rank blocks with
  | (transport, .rejected error) =>
    { s with transport, arrivals := s.arrivals.push (.error error) }
  | (transport, .opened c) =>
    { transport
      timers := (s.timers.schedule (transport.get e.kind).timeout ⟨e.kind, key, c⟩).1
      arrivals := s.arrivals.push (.ok ⟨e, rank, c⟩) }
  | (transport, .joined c) | (transport, .completed c _) =>
    { s with transport, arrivals := s.arrivals.push (.ok ⟨e, rank, c⟩) }

def valueOf (s : TransportSession) :
    Except Error Participation → Option (Except Error (Option Bytes))
  | .error e => some (.error e)
  | .ok p => (s.transport.contributions? p.exchange.kind p.cell).map fun r =>
      r.bind (p.exchange.result p.rank)

def values (s : TransportSession) : List (Option (Except Error (Option Bytes))) :=
  s.arrivals.toList.map s.valueOf

def value? (s : TransportSession) (i : Nat) : Option (Except Error (Option Bytes)) :=
  s.arrivals[i]?.bind s.valueOf

def wait (s : TransportSession) (i : Nat) : TransportSession :=
  passTime timers (fun s t => { s with timers := t })
    (fun s x => { s with transport := (s.transport.expire x).1 })
    (fun s => (s.value? i).isSome) (s.timers.now + patience) (s.timers.waiting.length + 1) s

def succeeded (s : TransportSession) (i : Nat) : Bool :=
  match s.value? i with
  | some (.ok _) => true
  | _ => false

end TransportSession

end OpFlow
