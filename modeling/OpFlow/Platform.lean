import OpFlow.Platform.State

/-!
What primitive operations do, as a backend of the machine. An operation acts on the arena of its
host and ends at once, or it leaves something behind that ends it later: a place in a rendezvous, a
request for a buffer, threads on a runner, or a promise that somebody outside keeps.
-/
namespace OpFlow

open Machine (CallKey Effect Backend)

abbrev Started := Platform × Except String (List (Effect Work))

namespace Platform

def ended (p : Platform) (c : CallKey) (o : Outcome) : Started := (p, .ok [.settle c o])

def endedBy (p : Platform) (c : CallKey) (f : Arena → Except Error Arena) : Started :=
  let (p, o) := p.onArena c.run.host f
  p.ended c o

/-- Runs `count` threads in order from `linear` on, until one stops early. -/
def runThreads (kernel : Kernel) (frameOf : Nat → KernelFrame) :
    Nat → Nat → Arena → Arena × Except Fault Unit
  | 0, _, arena => (arena, .ok ())
  | count + 1, linear, arena =>
    match (kernel (frameOf linear)).runOn arena with
    | (arena, .ok ()) => runThreads kernel frameOf count (linear + 1) arena
    | (arena, .error fault) => (arena, .error fault)

/-- Runs `count` threads in order from `linear` on, all of them unless one panics, and keeps the
first error. -/
def runAllThreads (kernel : Kernel) (frameOf : Nat → KernelFrame) :
    Nat → Nat → Option Error → Arena → Arena × Except Fault Unit
  | 0, _, none, arena => (arena, .ok ())
  | 0, _, some e, arena => (arena, .error (.error e))
  | count + 1, linear, first, arena =>
    match (kernel (frameOf linear)).runOn arena with
    | (arena, .ok ()) => runAllThreads kernel frameOf count (linear + 1) first arena
    | (arena, .error (.error e)) =>
      runAllThreads kernel frameOf count (linear + 1) (first <|> some e) arena
    | (arena, .error (.panic text)) => (arena, .error (.panic text))

/-- The end of an operation that ran user code. -/
def endedWith (p : Platform) (c : CallKey) (arena : Arena) (r : Except Fault Unit) : Started :=
  let p := p.setArena c.run.host arena
  match r with
  | .ok () => p.ended c (.ok ())
  | .error (.error e) => p.ended c (.error e)
  | .error (.panic text) => (p, .error text)

/-- The kernel is looked up at every start. A host has one context, so that finds the same every time. -/
def launchKernel (p : Platform) (c : CallKey) (name : String) (arguments results : List Slice)
    (grid : Grid) : Started :=
  match (p.contextOf c.run.host).requireKernels >>= fun ks => Kernel.find ks name with
  | .error e => p.ended c (.error e)
  | .ok kernel =>
    let frameOf := fun linear => ⟨grid.point linear, grid, arguments, results⟩
    let arena := p.arenaOf c.run.host
    let threads := ((p.host? c.run.host).map HostState.threads).getD .inOrder
    match threads, decide (1 < grid.count) with
    | .inline, true =>
      let (arena, r) := runAllThreads kernel frameOf grid.count 0 none arena
      p.endedWith c arena r
    | .onRunner runner, true =>
      let gathering := { call := c, remaining := grid.count }
      ({ p with gridRuns := p.gridRuns.push ⟨gathering, kernel, arguments, results, grid⟩ },
        .ok ((List.range grid.count).map fun linear =>
          .submit runner (.thread p.gridRuns.size linear)))
    | _, _ =>
      let (arena, r) := runThreads kernel frameOf grid.count 0 arena
      p.endedWith c arena r

def gathered (g : Gathering) : List (Effect Work) :=
  match g.outcome? with
  | some o => [.settle g.call o]
  | none => []

/-- Runs one thread of a kernel. A thread that panics has gone away without an outcome. -/
def runThread (p : Platform) (gridRun linear : Nat) :
    Platform × List (Effect Work) × Option String :=
  match p.gridRuns[gridRun]? with
  | none => (p, [], none)
  | some g =>
    let host := g.gathering.call.run.host
    let (arena, r) :=
      (g.kernel ⟨g.grid.point linear, g.grid, g.arguments, g.results⟩).runOn (p.arenaOf host)
    let (gathering, panic) := match r with
      | .ok () => (g.gathering.ended linear (.ok ()), none)
      | .error (.error e) => (g.gathering.ended linear (.error e), none)
      | .error (.panic text) => (g.gathering.lose, some text)
    let p := p.setArena host arena
    ({ p with gridRuns := p.gridRuns.setIfInBounds gridRun { g with gathering } },
      gathered gathering, panic)

/-- A thread of a kernel goes away unrun. -/
def loseThread (p : Platform) (gridRun : Nat) : Platform × List (Effect Work) :=
  match p.gridRuns[gridRun]? with
  | none => (p, [])
  | some g =>
    let gathering := g.gathering.lose
    ({ p with gridRuns := p.gridRuns.setIfInBounds gridRun { g with gathering } },
      gathered gathering)

/-- Writes a buffer that an infeed has delivered. -/
def writeFed (p : Platform) (h : Nat) (destination : Slice) (bytes : Bytes) :
    Platform × Outcome :=
  if bytes.length ≠ destination.size then
    (p, .error (.invalidArgument ("infeed delivered " ++ toString bytes.length ++
      " bytes for " ++ destination.describe)))
  else p.onArena h fun a => a.write destination bytes

/-- A buffer has come for a part of an infeed. -/
def fill (p : Platform) (t : FeedTaker) (bytes : Bytes) : Platform × List (Effect Work) :=
  match p.intakes[t.intake]? with
  | none => (p, [])
  | some g =>
    let (p, o) := p.writeFed g.call.run.host t.destination bytes
    let g := g.ended t.part o
    ({ p with intakes := p.intakes.setIfInBounds t.intake g }, gathered g)

/-- Asks for a buffer for each destination, from `part` on. -/
def takeAll (p : Platform) (h intake : Nat) : Nat → List Slice → Platform × List (Effect Work)
  | _, [] => (p, [])
  | part, destination :: rest =>
    match p.host? h with
    | none => (p, [])
    | some s =>
      let taker := ⟨intake, part, destination⟩
      let (infeed, got) := s.feeds.infeed.dequeue taker
      let p := p.modifyHost h fun s => { s with feeds := { s.feeds with infeed } }
      let (p, effects) := match got with
        | some bytes => p.fill taker bytes
        | none => (p, [])
      let (p, more) := takeAll p h intake (part + 1) rest
      (p, effects ++ more)

def launchInfeed (p : Platform) (c : CallKey) (destinations : List Slice) : Started :=
  match (p.contextOf c.run.host).requireFeeds with
  | .error e => p.ended c (.error e)
  | .ok () =>
    if destinations.isEmpty then p.ended c (.ok ())
    else
      let intake := p.intakes.size
      let p := { p with intakes := p.intakes.push { call := c, remaining := destinations.length } }
      let (p, effects) := p.takeAll c.run.host intake 0 destinations
      (p, .ok effects)

/-- Puts a buffer into the outfeed of a host. -/
def putOut (p : Platform) (h : Nat) (bytes : Bytes) : Platform :=
  p.modifyHost h fun s =>
    let (outfeed, taker) := s.feeds.outfeed.enqueue bytes
    { s with
      feeds := { s.feeds with outfeed }
      outfed := match taker with
        | some k => s.outfed.setIfInBounds k (some bytes)
        | none => s.outfed }

/-- All sources are read before the first is put out. -/
def launchOutfeed (p : Platform) (c : CallKey) (sources : List Slice) : Started :=
  let h := c.run.host
  match (p.contextOf h).requireFeeds >>= fun _ => sources.mapM (p.arenaOf h).read with
  | .error e => p.ended c (.error e)
  | .ok buffers => (buffers.foldl (fun p b => p.putOut h b) p).ended c (.ok ())

/-- The state of every generator at first. -/
def initialRandom : Nat := 0x7012395

/-- A generator moves on even if its state cannot be written. -/
def launchAdvance (p : Platform) (c : CallKey) (state : Slice) (delta : Nat)
    (generator : Resource) : Started :=
  let now := (p.generators.get? generator.id).getD initialRandom
  let p := { p with generators := p.generators.set generator.id ((now + delta) % Nat.pow 2 128) }
  p.endedBy c fun a => a.write state (.ofNat 16 now)

def launchPlaceId (p : Platform) (c : CallKey) (axis : PlaceAxis) (destination : Slice) :
    Started :=
  let number := do
    let ctx ← (p.contextOf c.run.host).requireCollective
    let place ← ctx.assignment.logicalId ctx.device
    if Nat.pow 2 32 ≤ axis.select place then
      throw (Error.invalidArgument "logical id does not fit in u32")
    return axis.select place
  p.endedBy c fun a => do a.write destination (.ofNat 4 (← number))

def received (p : Platform) (t : Participant) : Except Error (Option Bytes) :=
  match p.transport.contributions? t.exchange.kind t.cell with
  | some contributions => contributions.bind (t.exchange.result t.rank)
  | none => .error .promiseDropped

/-- Writes what a participant receives. Who receives nothing gets zeros, of which there cannot be
more than a memory holds. -/
def deliver (p : Platform) (t : Participant) : Platform × Except Fault Unit :=
  match p.received t with
  | .error e => (p, .error (.error e))
  | .ok received =>
    if received.isNone ∧ memoryLimit ≤ t.destination.size then (p, .error .capacity)
    else
      let (p, o) := p.onArena t.call.run.host fun a =>
        match received with
        | some bytes => a.write t.destination bytes
        | none => a.modify t.destination fun old => old.map fun _ => 0
      (p, o.mapError .error)

/-- The participants of an exchange whose results cannot be handed out. Those who wait get nothing,
and the start of the last one, which did it, panics. -/
def abandoned (text : String) : List Participant → List (Effect Work)
  | [] => []
  | [t] => [.settle t.call (.error (.panicked text))]
  | t :: rest => .settle t.call (.error .promiseDropped) :: abandoned text rest

/-- Hands out the results of an exchange. What follows from the end of one participant is done
before the next gets its own. -/
def handOut (p : Platform) : List Participant → Platform × List (Effect Work)
  | [] => (p, [])
  | t :: rest =>
    match p.deliver t with
    | (p, .ok ()) => (p, [.settle t.call (.ok ()), .work (.handOut rest)])
    | (p, .error (.error e)) => (p, [.settle t.call (.error e), .work (.handOut rest)])
    | (p, .error (.panic text)) => (p, abandoned text (t :: rest))

/-- A participant who has arrived gets the results if the exchange has ended meanwhile, and waits for
them otherwise. -/
def attend (p : Platform) (t : Participant) : Platform × List (Effect Work) :=
  match p.transport.contributions? t.exchange.kind t.cell with
  | some _ => p.handOut [t]
  | none => ({ p with transport := p.transport.register t.exchange.kind t.cell t }, [])

/-- The last participant lets the exchange end. The results go to those who wait, in the order in
which they came, and then to itself. -/
def resolve (p : Platform) (values : List (List Bytes)) (t : Participant) :
    Platform × List (Effect Work) :=
  let (transport, woken) := p.transport.settle t.exchange.kind t.cell values
  ({ p with transport }, [.work (.handOut (woken ++ [t]))])

structure Entry where
  exchange : Exchange
  key : RendezvousKey
  rank : Nat
  blocks : List Bytes

/-- What an operation brings to its exchange, or why it cannot take part. -/
def entry (p : Platform) (c : CallKey) (info : OpInfo) (op : Collective) : Except Error Entry := do
  let ctx ← (p.contextOf c.run.host).requireCollective
  let m ← op.membership info ctx
  let input ← (p.arenaOf c.run.host).read op.source
  let blocks ← op.blocks m.devices.length input
  return ⟨op.exchangeIn ctx.assignment m, ⟨ctx.run, m.devices, op.op⟩, m.rank, blocks⟩

/-- Joins an exchange. A group that is new must be timed; the last participant to arrive lets the
exchange end, and every other one looks after it. -/
def launchCollective (p : Platform) (c : CallKey) (info : OpInfo) (op : Collective) : Started :=
  match p.entry c info op with
  | .error e => p.ended c (.error e)
  | .ok e =>
    let (transport, entrance) := p.transport.enter e.exchange e.key e.rank e.blocks
    let p := { p with transport }
    let kind := e.exchange.kind
    let me := fun cell => ⟨c, e.exchange, e.rank, cell, op.destination⟩
    match entrance with
    | .rejected e => p.ended c (.error e)
    | .waiting cell true =>
      ({ p with timers := (p.timers.schedule (transport.get kind).timeout ⟨kind, e.key, cell⟩).1 },
        .ok [.work (.attend (me cell))])
    | .waiting cell false | .filled cell none => (p, .ok [.work (.attend (me cell))])
    | .filled cell (some values) => (p, .ok [.work (.resolve values (me cell))])

def launchCustomCall (p : Platform) (c : CallKey) (target config : String)
    (operands results : List Slice) : Started :=
  let found := do
    let ctx ← (p.contextOf c.run.host).requireCustomCall
    return (ctx, ← Handler.find ctx.handlers target)
  match found with
  | .error e => p.ended c (.error e)
  | .ok (ctx, handler) =>
    let frame := ⟨target, config, operands, results, ctx.ordinal, ctx.stream, ctx.context⟩
    let allocator := (p.host? c.run.host).bind HostState.allocator
    let (s, r) := (handler frame).runOn ⟨p.arenaOf c.run.host, allocator⟩
    let p := p.modifyHost c.run.host fun h => { h with allocator := s.allocator }
    let r := match r with
      | .error (.error e) => .error (.error (Handler.wrapError target e))
      | r => r
    p.endedWith c s.arena r

def launchScript (p : Platform) (c : CallKey) (s : Script) : Started :=
  match s with
  | .succeed => p.ended c (.ok ())
  | .write slice bytes => p.endedBy c fun a => a.write slice bytes
  | .fail e => p.ended c (.error e)
  | .panic text => (p, .error text)
  | .defer => ({ p with deferred := p.deferred.push (some c) }, .ok [])

def launch (c : CallKey) (info : OpInfo) (op : Primitive) (p : Platform) : Started :=
  match op with
  | .copy src dst => p.endedBy c fun a => a.copy src dst
  | .kernel name arguments results grid => p.launchKernel c name arguments results grid
  | .infeed destinations _ => p.launchInfeed c destinations
  | .outfeed sources _ => p.launchOutfeed c sources
  | .advanceRandom state delta generator => p.launchAdvance c state delta generator
  | .placeId axis destination => p.launchPlaceId c axis destination
  | .collective op => p.launchCollective c info op
  | .customCall target config operands results =>
    p.launchCustomCall c target config operands results
  | .scripted _ _ script => p.launchScript c script

/-- Ends an exchange that ran out of time; everybody who waits in it gets the error. -/
def expire (p : Platform) (x : Expiry) : Platform × List (Effect Work) :=
  let (transport, woken) := p.transport.expire x
  ({ p with transport }, [.work (.handOut woken)])

/-- Gives a buffer to the infeed of a host. -/
def putIn (p : Platform) (h : Nat) (bytes : Bytes) : Platform × List (Effect Work) :=
  match p.host? h with
  | none => (p, [])
  | some s =>
    let (infeed, taker) := s.feeds.infeed.enqueue bytes
    let p := p.modifyHost h fun s => { s with feeds := { s.feeds with infeed } }
    match taker with
    | some t => p.fill t bytes
    | none => (p, [])

def takeOut (p : Platform) (h : Nat) : Platform :=
  p.modifyHost h fun s =>
    let (outfeed, got) := s.feeds.outfeed.dequeue s.outfed.size
    { s with feeds := { s.feeds with outfeed }, outfed := s.outfed.push got }

/-- Ends an operation that waits for somebody outside, if it still does. -/
def endDeferred (p : Platform) (i : Nat) (o : Outcome) :
    Platform × Option (List (Effect Work)) :=
  match p.deferred[i]?.join with
  | some c => ({ p with deferred := p.deferred.setIfInBounds i none }, some [.settle c o])
  | none => (p, none)

/-- The backend for primitive operations. -/
def backend : Backend Primitive Platform Work where
  launch := launch
  perform work p :=
    match work with
    | .attend participant =>
      let (p, effects) := p.attend participant
      (p, effects, none)
    | .resolve values participant =>
      let (p, effects) := p.resolve values participant
      (p, effects, none)
    | .handOut participants =>
      let (p, effects) := p.handOut participants
      (p, effects, none)
    | .thread gridRun linear => p.runThread gridRun linear
  discard work p :=
    match work with
    | .attend participant | .resolve _ participant =>
      (p, [.settle participant.call (.error .promiseDropped)])
    | .handOut participants =>
      (p, participants.map fun t => .settle t.call (.error .promiseDropped))
    | .thread gridRun _ => p.loseThread gridRun
  read h s p := (p.arenaOf h).read s

end Platform

end OpFlow
