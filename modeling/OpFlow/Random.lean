/-!
A deterministic generator of 64-bit words: three xor-shifts of a state that is never zero. A seed
fixes every word, index and shuffle drawn from it.
-/
namespace OpFlow

structure Random where
  state : UInt64
  deriving DecidableEq, Repr, Inhabited

namespace Random

/-- The generator of a seed; zero, from which nothing could follow, is taken as one. -/
def ofSeed (seed : UInt64) : Random := ⟨if seed = 0 then 1 else seed⟩

def shift (x : UInt64) : UInt64 :=
  let x := x ^^^ (x <<< 13)
  let x := x ^^^ (x >>> 7)
  x ^^^ (x <<< 17)

def next (r : Random) : UInt64 × Random := (shift r.state, ⟨shift r.state⟩)

def index (r : Random) (bound : Nat) : Nat × Random := (r.next.1.toNat % bound, r.next.2)

def index? (r : Random) (bound : Nat) : Except String Nat × Random :=
  if bound = 0 then (.error "bound must be non-zero", r)
  else (.ok (r.index bound).1, (r.index bound).2)

/-- Exchanges the elements from position `i` down to 1 with randomly chosen ones before them. -/
def shuffleFrom {α : Type} : Nat → Random → Array α → Random × Array α
  | 0, r, xs => (r, xs)
  | i + 1, r, xs =>
    let (j, r) := r.index (i + 2)
    shuffleFrom i r (xs.swapIfInBounds (i + 1) j)

def shuffle {α : Type} (r : Random) (xs : Array α) : Random × Array α :=
  shuffleFrom (xs.size - 1) r xs

theorem index_lt (r : Random) {bound : Nat} (h : 0 < bound) : (r.index bound).1 < bound :=
  Nat.mod_lt _ h

theorem ofSeed_state_ne_zero (seed : UInt64) : (ofSeed seed).state ≠ 0 := by
  unfold ofSeed
  split
  · decide
  · assumption

end Random

end OpFlow
