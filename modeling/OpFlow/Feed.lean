import OpFlow.Bytes
import OpFlow.Text.Quoted

/-!
Feeds: queues of byte buffers between host and device. A taker that finds no buffer waits, and the
next buffer goes straight to the one that has waited longest, so buffers and takers are never both
queued. The `k`th request gets the `k`th buffer.
-/
namespace OpFlow

/-- A queue of buffers and of those, named by `κ`, who wait for one. -/
structure Feed (κ : Type) where
  buffers : List Bytes := []
  waiters : List κ := []
  deriving Inhabited

namespace Feed

variable {κ : Type}

def enqueue (f : Feed κ) (b : Bytes) : Feed κ × Option κ :=
  match f.waiters with
  | [] => ({ f with buffers := f.buffers ++ [b] }, none)
  | w :: ws => ({ f with waiters := ws }, some w)

def dequeue (f : Feed κ) (w : κ) : Feed κ × Option Bytes :=
  match f.buffers with
  | [] => ({ f with waiters := f.waiters ++ [w] }, none)
  | b :: bs => ({ f with buffers := bs }, some b)

def describe (f : Feed κ) : String :=
  Text.record "XfeedQueue"
    [("buffers", toString f.buffers.length), ("waiters", toString f.waiters.length)]

/-- Buffers and waiters are not queued together. -/
def Exclusive (f : Feed κ) : Prop := f.buffers = [] ∨ f.waiters = []

end Feed

/-- The pair of feeds of one device: into it, from which operations take, and out of it, from which
the host takes. -/
structure FeedPair (κ μ : Type) where
  infeed : Feed κ := {}
  outfeed : Feed μ := {}
  deriving Inhabited

def FeedPair.describe {κ μ : Type} (p : FeedPair κ μ) : String :=
  Text.record "XfeedManager"
    [("infeed", p.infeed.describe), ("outfeed", p.outfeed.describe)]

/-- A dialogue with one feed. Every request to take has a number; `slots` holds what each got, none
while it waits, and a forgotten request is shown as nothing. -/
structure FeedSession where
  feed : Feed Nat := {}
  slots : Array (Option Bytes) := #[]
  forgotten : List Nat := []

namespace FeedSession

def enqueue (s : FeedSession) (b : Bytes) : FeedSession × List Nat :=
  match s.feed.enqueue b with
  | (feed, none) => ({ s with feed }, [])
  | (feed, some w) => ({ s with feed, slots := s.slots.setIfInBounds w (some b) }, [w])

/-- Asks for a buffer; gives the request's number, which is satisfied at once if there is one. -/
def dequeue (s : FeedSession) : FeedSession × Nat × List Nat :=
  let n := s.slots.size
  match s.feed.dequeue n with
  | (feed, none) => ({ s with feed, slots := s.slots.push none }, n, [])
  | (feed, some b) => ({ s with feed, slots := s.slots.push (some b) }, n, [n])

def forget (s : FeedSession) (n : Nat) : FeedSession := { s with forgotten := n :: s.forgotten }

end FeedSession

end OpFlow
