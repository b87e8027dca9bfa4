import OpFlow.Proofs.Context.Provision
import OpFlow.Proofs.Frame.Custody

/-!
What happens outside while programs run: time passes, an exchange runs out of time, the host puts a
buffer into an infeed or takes one from an outfeed, or ends an operation that waits for it. All of
this is steady, keeps what is in flight in custody, and leaves the contexts of runs as they are.
-/
namespace OpFlow

open Machine (CallKey Effect Crew)

namespace Platform

/-- Something that happens outside. -/
inductive Occasion : (Platform → Platform × List (Effect Work)) → Prop
  | time (pass : Timers Expiry → Timers Expiry) :
      Occasion fun p => ({ p with timers := pass p.timers }, [])
  | expire (x : Expiry) : Occasion fun p => p.expire x
  | putIn (h : Nat) (bytes : Bytes) : Occasion fun p => p.putIn h bytes
  | takeOut (h : Nat) : Occasion fun p => (p.takeOut h, [])
  | endDeferred (i : Nat) (o : Outcome) :
      Occasion fun p => ((p.endDeferred i o).1, (p.endDeferred i o).2.getD [])

variable {U : Nat → Set BufferUse} {p : Platform} {change : Platform → Platform × List (Effect Work)}

def putting (bytes : Bytes) (f : Feed FeedTaker) : Feed FeedTaker × Option (FeedTaker × Bytes) :=
  ((f.enqueue bytes).1, (f.enqueue bytes).2.map (·, bytes))

theorem putIn_eq (p : Platform) (h : Nat) (bytes : Bytes) :
    p.putIn h bytes = p.serve (putting bytes) h := by
  rw [putIn, serve]
  cases p.host? h with
  | none => rfl
  | some s =>
    dsimp only [Option.map_some, putting]
    rcases s.feeds.infeed.enqueue bytes with ⟨infeed, _ | t⟩ <;> rfl

theorem mem_waiters_enqueue {κ : Type} {f : Feed κ} {b : Bytes} {w : κ}
    (h : (f.enqueue b).2 = some w ∨ w ∈ (f.enqueue b).1.waiters) : w ∈ f.waiters := by
  unfold Feed.enqueue at h
  split at h
  · simpa using h
  · next w' ws hw =>
    rw [hw]
    rcases h with h | h
    · exact Option.some.inj h ▸ List.mem_cons_self
    · exact List.mem_cons_of_mem _ h

theorem steady_putIn (hp : p.Custody U) (h : Nat) (bytes : Bytes) :
    Steady U p fun q => q.putIn h bytes := by
  have hserve : Steady U p (serve (putting bytes) h) := steady_serve fun feeds hfeeds t b hgot => by
    obtain ⟨t', htaker, heq⟩ := Option.map_eq_some_iff.1 hgot
    cases heq
    exact hp.feeds hfeeds t (mem_waiters_enqueue (.inl htaker))
  exact hserve.congr fun q _ => putIn_eq q h bytes

theorem Custody.hands_putIn (hp : p.Custody U) (h : Nat) (bytes : Bytes) :
    (p.putIn h bytes).1.Hands U (p.putIn h bytes).2 := by
  rw [putIn_eq]
  exact hp.hands_serve h fun f t ht => .inl (mem_waiters_enqueue (.inr ht))

theorem Occasion.steady (hp : p.Custody U) (h : Occasion change) : Steady U p change := by
  cases h with
  | time pass => exact .aloof (fun f _ => rfl) fun k => rfl
  | expire x => exact .aloof (fun f _ => rfl) fun k => rfl
  | putIn h bytes => exact steady_putIn hp h bytes
  | takeOut h => exact steady_modifyHost (fun _ _ => rfl) _
  | endDeferred i o =>
    unfold Platform.endDeferred
    exact .aloof (fun f _ => by dsimp only [withArenas]; split <;> rfl) fun k => by split <;> rfl

theorem Occasion.hands (hp : p.Custody U) (h : Occasion change) :
    (change p).1.Hands U (change p).2 := by
  cases h with
  | time pass =>
    exact (hp.setTransport hp.waiting _).settles (by simp)
  | expire x =>
    refine ⟨hp.setTransport (fun t ht => hp.waiting t (Transport.mem_waiting_expire (.inr ht)))
      p.timers, fun e he y hy => ?_⟩
    obtain rfl := List.mem_singleton.1 he
    obtain rfl := Option.some.inj hy
    exact fun t ht => hp.waiting t (Transport.mem_waiting_expire (.inl ht))
  | putIn h bytes => exact hp.hands_putIn h bytes
  | takeOut h =>
    have hmodify : (p.takeOut h).Custody U := hp.modifyHost h fun _ _ => .inl
    exact hmodify.settles (by simp)
  | endDeferred i o =>
    dsimp only [Platform.endDeferred]
    split
    · exact ⟨⟨hp.waiting, hp.gridRuns, hp.takers⟩, by simp [Effect.work?]⟩
    · exact hp.settles (by simp)

theorem Occasion.contextOf (h : Occasion change) (p : Platform) :
    (change p).1.contextOf = p.contextOf := by
  cases h with
  | time pass => rfl
  | expire x => rfl
  | putIn h bytes =>
    dsimp only
    rw [putIn_eq, serve]
    split
    · rfl
    · dsimp only
      split
      · rw [contextOf_fill]
        exact contextOf_modifyHost p h fun _ => rfl
      · exact contextOf_modifyHost p h fun _ => rfl
  | takeOut h => exact contextOf_modifyHost p h fun _ => rfl
  | endDeferred i o =>
    dsimp only [Platform.endDeferred]
    split <;> rfl

end Platform

end OpFlow
