import OpFlow.Bytes
import OpFlow.Buffer.Slice
import OpFlow.Fault

/-!
What a device offers to custom calls: streams, scratch memory under a limit, and a context of typed
values. An allocator counts the memories and bytes it has handed out; a request that would pass the
limit is refused and changes only the count of refusals.
-/
namespace OpFlow

structure Stream where
  id : Nat
  ordinal : Int
  deriving DecidableEq, Repr, Inhabited

structure Memory where
  ordinal : Int
  bytes : Bytes
  deriving DecidableEq, Repr, Inhabited

structure Allocator where
  /-- The most bytes that may be handed out at once. -/
  limit : Option Nat := none
  /-- Memories handed out so far. -/
  count : Nat := 0
  inUse : Nat := 0
  peak : Nat := 0
  refused : Nat := 0
  deriving DecidableEq, Repr, Inhabited

namespace Allocator

/-- Asks for zeroed memory. A request for more than any memory holds is counted all the same. -/
def allocate (a : Allocator) (ordinal : Int) (size : Nat) :
    Allocator × Except Fault Memory :=
  let wanted := saturatingAdd a.inUse size
  if a.limit.any (· < wanted) then
    ({ a with refused := a.refused + 1 },
      .error (.error (.resourceExhausted ("allocating " ++ toString size ++
        " bytes would exceed the " ++ toString (a.limit.getD 0) ++ " byte limit (" ++
        toString a.inUse ++ " in use)"))))
  else
    ({ a with count := a.count + 1, inUse := wanted, peak := max a.peak wanted },
      if memoryLimit ≤ size then .error .capacity
      else .ok ⟨ordinal, List.replicate size 0⟩)

def release (a : Allocator) (m : Memory) : Allocator :=
  { a with inUse := a.inUse - m.bytes.length }

def describe (a : Allocator) : String :=
  let stats := Text.record "AllocatorStats"
    [("num_allocs", toString a.count), ("bytes_in_use", toString a.inUse),
      ("peak_bytes_in_use", toString a.peak), ("num_refused", toString a.refused)]
  Text.record "HostMemoryAllocator"
    [("limit", Text.optional (a.limit.map toString)),
      ("stats", Text.record "Mutex" [("data", stats)])]

end Allocator

/-- The values of foreign code, at most one of each type. -/
structure ForeignContext where
  u8 : Option Nat := none
  u64 : Option Nat := none
  i32 : Option Int := none
  deriving DecidableEq, Repr, Inhabited

namespace ForeignContext

def size (c : ForeignContext) : Nat :=
  c.u8.toList.length + c.u64.toList.length + c.i32.toList.length

def lookup {α : Type} (value : Option α) (typeName : String) : Except Error α :=
  match value with
  | some v => .ok v
  | none => .error (.notFound "execution context entry" typeName)

def describe (c : ForeignContext) : String :=
  Text.record "FfiExecutionContext" [("entries", toString c.size)]

end ForeignContext

/-- A dialogue with one allocator. Requests are numbered, granted or not; a memory given back or
refused is no longer held. -/
structure DeviceSession where
  allocator : Allocator := {}
  memories : Array (Option Memory) := #[]
  context : ForeignContext := {}
  /-- Streams made so far. -/
  streams : Nat := 0

namespace DeviceSession

/-- Asks for memory; a request that panics gets no number. -/
def allocate (s : DeviceSession) (ordinal : Int) (size : Nat) :
    DeviceSession × Except Fault Memory :=
  match s.allocator.allocate ordinal size with
  | (allocator, .ok m) => ({ s with allocator, memories := s.memories.push (some m) }, .ok m)
  | (allocator, .error (.error e)) =>
    ({ s with allocator, memories := s.memories.push none }, .error (.error e))
  | (allocator, .error (.panic text)) => ({ s with allocator }, .error (.panic text))

def held? (s : DeviceSession) (i : Nat) : Option Memory := s.memories[i]?.join

/-- Sets all bytes of a memory that is held. -/
def fill (s : DeviceSession) (i : Nat) (b : UInt8) : DeviceSession × Option Bytes :=
  match s.held? i with
  | some m =>
    let bytes := m.bytes.map fun _ => b
    ({ s with memories := s.memories.setIfInBounds i (some { m with bytes }) }, some bytes)
  | none => (s, none)

/-- Gives back a memory that is held. -/
def free (s : DeviceSession) (i : Nat) : DeviceSession × Bool :=
  match s.held? i with
  | some m =>
    ({ s with
        allocator := s.allocator.release m
        memories := s.memories.setIfInBounds i none }, true)
  | none => (s, false)

def stream (s : DeviceSession) (ordinal : Int) : DeviceSession × Stream :=
  ({ s with streams := s.streams + 1 }, ⟨s.streams, ordinal⟩)

end DeviceSession

end OpFlow
