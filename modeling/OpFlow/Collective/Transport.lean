import OpFlow.Collective.Rendezvous
import OpFlow.Fault
import OpFlow.Reduction
import OpFlow.Timer

/-!
The collective exchanges between participants that share a memory. Every kind of exchange has a
rendezvous of its own, so operation numbers need to differ only within one kind. A participant
contributes blocks of bytes and later computes its own result from the blocks of all ranks.
-/
namespace OpFlow

inductive ExchangeKind
  | allReduce
  | allGather
  | reduceScatter
  | allToAll
  | permute
  deriving DecidableEq, Repr, Inhabited

/-- What a participant wants from an exchange. -/
inductive Exchange
  /-- The reduction of all contributions. -/
  | allReduce (reduction : ReductionKind) (type : ElementType)
  /-- All contributions in rank order. -/
  | allGather
  /-- The participant's share of the reduction. -/
  | reduceScatter (reduction : ReductionKind) (type : ElementType)
  /-- The blocks that all ranks contribute for the participant. -/
  | allToAll
  /-- The contribution of the rank that is paired with the participant. -/
  | permute (pairs : List (Nat × Nat))
  deriving DecidableEq, Repr, Inhabited

namespace Exchange

def kind : Exchange → ExchangeKind
  | allReduce _ _ => .allReduce
  | allGather => .allGather
  | reduceScatter _ _ => .reduceScatter
  | allToAll => .allToAll
  | permute _ => .permute

/-- The share of one rank in a string of bytes that must divide evenly over all `n` ranks. -/
def shard (type : ElementType) (n rank : Nat) (b : Bytes) : Except Error Bytes :=
  let size := b.length / type.width / n * type.width
  if size * n ≠ b.length then
    .error (.invalidArgument (toString b.length ++ " bytes of " ++ type.describe ++
      " cannot be scattered evenly over " ++ toString n ++ " ranks"))
  else .ok ((b.drop (rank * size)).take size)

/-- The bytes from `start` to `stop`. -/
def cut (b : Bytes) (start stop : Nat) : Except Fault Bytes :=
  if stop < start then
    .error (.panic ("slice index starts at " ++ toString start ++ " but ends at " ++ toString stop))
  else if b.length < stop then
    .error (.panic ("range end index " ++ toString stop ++ " out of range for slice of length " ++
      toString b.length))
  else .ok ((b.drop start).take (stop - start))

/-- The share of one rank, computed with words. -/
def shardOnWords (type : ElementType) (n rank : Nat) (b : Bytes) : Except Fault Bytes := do
  let elements ← Word.div (← Word.div b.length type.width) n
  if (← Word.mul (← Word.mul elements n) type.width) ≠ b.length then
    throw (.error (.invalidArgument (toString b.length ++ " bytes of " ++ type.describe ++
      " cannot be scattered evenly over " ++ toString n ++ " ranks")))
  let size ← Word.mul elements type.width
  cut b (← Word.mul rank size) (← Word.mul (← Word.add rank 1) size)

/-- What the participant of this rank gets when the ranks contributed these blocks; nothing if no
rank sends to it. -/
def result (e : Exchange) (rank : Nat) (blocks : List (List Bytes)) :
    Except Error (Option Bytes) :=
  match e with
  | allReduce k t => some <$> Reduction.reduceAll t k (blocks.map List.flatten)
  | allGather => .ok (some (blocks.map List.flatten).flatten)
  | reduceScatter k t => do
    let whole ← Reduction.reduceAll t k (blocks.map List.flatten)
    some <$> shard t blocks.length rank whole
  | allToAll => .ok (some (blocks.flatMap fun sent => sent[rank]?.getD []))
  | permute pairs =>
    match pairs.find? fun p => p.2 == rank with
    | none => .ok none
    | some (source, _) =>
      match blocks[source]? with
      | some b => .ok (some b.flatten)
      | none => .error (.invalidArgument
          ("permute source rank " ++ toString source ++ " out of range"))

end Exchange

/-- The rendezvous of all kinds of exchange. -/
structure Transport (κ : Type) where
  allReduce : Rendezvous (List Bytes) κ
  allGather : Rendezvous (List Bytes) κ
  reduceScatter : Rendezvous (List Bytes) κ
  allToAll : Rendezvous (List Bytes) κ
  permute : Rendezvous (List Bytes) κ
  deriving Inhabited

structure Expiry where
  kind : ExchangeKind
  key : RendezvousKey
  cell : Nat
  deriving DecidableEq, Repr, Inhabited

namespace Transport

variable {κ : Type}

/-- A transport whose groups wait for at most `timeout` milliseconds. -/
def ofTimeout (timeout : Nat) : Transport κ where
  allReduce := { name := "all-reduce", timeout }
  allGather := { name := "all-gather", timeout }
  reduceScatter := { name := "reduce-scatter", timeout }
  allToAll := { name := "all-to-all", timeout }
  permute := { name := "collective-permute", timeout }

def get (t : Transport κ) : ExchangeKind → Rendezvous (List Bytes) κ
  | .allReduce => t.allReduce
  | .allGather => t.allGather
  | .reduceScatter => t.reduceScatter
  | .allToAll => t.allToAll
  | .permute => t.permute

def set (t : Transport κ) (k : ExchangeKind) (r : Rendezvous (List Bytes) κ) : Transport κ :=
  match k with
  | .allReduce => { t with allReduce := r }
  | .allGather => { t with allGather := r }
  | .reduceScatter => { t with reduceScatter := r }
  | .allToAll => { t with allToAll := r }
  | .permute => { t with permute := r }

theorem get_set (t : Transport κ) (k l : ExchangeKind) (r : Rendezvous (List Bytes) κ) :
    (t.set k r).get l = if k = l then r else t.get l := by
  cases k <;> cases l <;> rfl

/-- Joins an exchange as `rank`, under the lock of its rendezvous. An all-to-all takes one block for
each participant. -/
def enter (t : Transport κ) (e : Exchange) (key : RendezvousKey) (rank : Nat)
    (blocks : List Bytes) : Transport κ × Entrance (List Bytes) :=
  if e.kind = .allToAll ∧ blocks.length ≠ key.size then
    (t, .rejected (.invalidArgument ("all-to-all needs " ++ toString key.size ++ " chunks, got " ++
      toString blocks.length)))
  else
    let (r, entrance) := (t.get e.kind).enter key rank blocks
    (t.set e.kind r, entrance)

/-- Keeps the promise of a group that has filled up, and hands out those who wait for it. -/
def settle (t : Transport κ) (k : ExchangeKind) (cell : Nat) (values : List (List Bytes)) :
    Transport κ × List κ :=
  let (r, woken) := (t.get k).settle cell (.ok values)
  (t.set k r, woken)

/-- Joins an exchange as `rank`, and keeps the promise of the group if that was the last one. -/
def arrive (t : Transport κ) (e : Exchange) (key : RendezvousKey) (rank : Nat)
    (blocks : List Bytes) : Transport κ × Arrival κ :=
  let (t, entrance) := t.enter e key rank blocks
  let (r, arrival) := (t.get e.kind).conclude entrance
  (t.set e.kind r, arrival)

def register (t : Transport κ) (k : ExchangeKind) (cell : Nat) (w : κ) : Transport κ :=
  t.set k ((t.get k).register cell w)

def expire (t : Transport κ) (x : Expiry) : Transport κ × List κ :=
  let (r, woken) := (t.get x.kind).expire x.key x.cell
  (t.set x.kind r, woken)

def contributions? (t : Transport κ) (k : ExchangeKind) (cell : Nat) :
    Option (Except Error (List (List Bytes))) :=
  (t.get k).result? cell

def describe (t : Transport κ) : String :=
  Text.record "InProcessCollectives"
    [("all_reduce", t.allReduce.describe), ("all_gather", t.allGather.describe),
      ("reduce_scatter", t.reduceScatter.describe), ("all_to_all", t.allToAll.describe),
      ("collective_permute", t.permute.describe)]

end Transport

end OpFlow
