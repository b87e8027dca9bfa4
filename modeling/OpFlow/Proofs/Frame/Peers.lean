import OpFlow.Proofs.Frame.Routine
import Mathlib.Logic.Function.Basic

/-!
Platforms that differ only in their arenas. A change of a platform is steady under the uses of each
host if it writes every arena only where the uses say so, and goes the same way on a platform whose
arenas hold the same in the slots that the uses name. What does not look at the arenas at all is
steady, what changes one arena under its uses is steady, and so is one such change after another.
-/
namespace OpFlow

namespace Platform

def withArenas (p : Platform) (arenas : Nat → Arena) : Platform :=
  { p with hosts := p.hosts.mapIdx fun k s => { s with arena := arenas k } }

/-- A platform is another with arenas that hold the same in the slots that each host's uses name. -/
def Peers (U : Nat → Set BufferUse) (p p' : Platform) : Prop :=
  ∃ arenas, p' = p.withArenas arenas ∧ ∀ k, (p.arenaOf k).Agree (U k) (p'.arenaOf k)

/-- A change of a platform, with what it comes to, writes arenas only under the uses of their hosts
and depends on no other slots than those that the uses name. -/
structure Steady {β : Type} (U : Nat → Set BufferUse) (p : Platform)
    (g : Platform → Platform × β) : Prop where
  framed : ∀ k, (p.arenaOf k).Framed (U k) ((g p).1.arenaOf k)
  result : ∀ p', p.Peers U p' → (g p').2 = (g p).2
  peers : ∀ p', p.Peers U p' → (g p).1.Peers U (g p').1

variable {U : Nat → Set BufferUse} {p p' q : Platform} {f : Nat → Arena} {β γ : Type} {h k : Nat}

section Over

variable (p) (f)

theorem host?_withArenas (k : Nat) :
    (p.withArenas f).host? k = (p.host? k).map fun s => { s with arena := f k } := by
  simp [host?, withArenas]

@[simp] theorem contextOf_withArenas : (p.withArenas f).contextOf = p.contextOf := by
  funext k
  simp only [contextOf, host?_withArenas, Option.map_map]
  rfl

theorem arenaOf_withArenas (k : Nat) :
    (p.withArenas f).arenaOf k = ((p.host? k).map fun _ => f k).getD ⟨#[]⟩ := by
  simp only [arenaOf, host?_withArenas, Option.map_map]
  rfl

theorem arenaOf_setArena (h : Nat) (a : Arena) :
    (p.setArena h a).arenaOf h = ((p.host? h).map fun _ => a).getD ⟨#[]⟩ := by
  rw [arenaOf, host?_setArena, if_pos rfl]
  cases p.host? h <;> rfl

theorem ext_hosts (h : ∀ k, p.host? k = q.host? k) : { q with hosts := p.hosts } = q := by
  have hhosts : p.hosts = q.hosts := Array.ext_getElem? h
  rw [hhosts]

theorem withArenas_arenaOf : p.withArenas p.arenaOf = p := by
  refine ext_hosts (p := p.withArenas p.arenaOf) (q := p) fun k => ?_
  rw [host?_withArenas, arenaOf]
  cases p.host? k <;> rfl

theorem host?_modifyHost (h : Nat) (g : HostState → HostState) (k : Nat) :
    (p.modifyHost h g).host? k = if h = k then (p.host? k).map g else p.host? k := by
  simp only [host?, modifyHost, Array.getElem?_modify]

theorem modifyHost_withArenas (h : Nat) {g : HostState → HostState}
    (hg : ∀ s a, g { s with arena := a } = { g s with arena := a }) :
    (p.withArenas f).modifyHost h g = (p.modifyHost h g).withArenas f := by
  refine ext_hosts (p := (p.withArenas f).modifyHost h g)
    (q := (p.modifyHost h g).withArenas f) fun k => ?_
  rw [host?_withArenas, host?_modifyHost, host?_modifyHost, host?_withArenas]
  split
  · cases p.host? k with
    | none => rfl
    | some s => exact congrArg some (hg s _)
  · rfl

theorem setArena_modifyHost (h : Nat) (a : Arena) {g : HostState → HostState}
    (hg : ∀ s a, g { s with arena := a } = { g s with arena := a }) :
    (p.modifyHost h g).setArena h a = (p.setArena h a).modifyHost h g := by
  refine ext_hosts (p := (p.modifyHost h g).setArena h a) (q := (p.setArena h a).modifyHost h g)
    fun k => ?_
  rw [host?_setArena, host?_modifyHost, host?_modifyHost, host?_setArena]
  split
  · cases p.host? k with
    | none => rfl
    | some s => exact congrArg some (hg s a).symm
  · rfl

theorem setArena_withArenas (h : Nat) (a b : Arena) :
    (p.withArenas f).setArena h a = (p.setArena h b).withArenas (Function.update f h a) := by
  refine ext_hosts (p := (p.withArenas f).setArena h a)
    (q := (p.setArena h b).withArenas (Function.update f h a)) fun k => ?_
  rw [host?_withArenas, host?_setArena, host?_setArena, host?_withArenas]
  by_cases hk : h = k
  · subst hk
    rw [if_pos rfl, if_pos rfl, Function.update_self]
    cases p.host? h <;> rfl
  · rw [if_neg hk, if_neg hk, Function.update_of_ne (Ne.symm hk)]

end Over

theorem Peers.refl (U : Nat → Set BufferUse) (p : Platform) : p.Peers U p :=
  ⟨p.arenaOf, p.withArenas_arenaOf.symm, fun _ => .refl _ _⟩

theorem Peers.contextOf (hp : p.Peers U p') : p'.contextOf = p.contextOf := by
  obtain ⟨f, rfl, -⟩ := hp
  exact contextOf_withArenas p f

theorem Peers.agree (hp : p.Peers U p') (k : Nat) : (p.arenaOf k).Agree (U k) (p'.arenaOf k) :=
  let ⟨_, _, hagree⟩ := hp
  hagree k

theorem Peers.map_host? (hp : p.Peers U p') {g : HostState → β}
    (hg : ∀ s a, g { s with arena := a } = g s) (k : Nat) :
    (p'.host? k).map g = (p.host? k).map g := by
  obtain ⟨f, rfl, -⟩ := hp
  rw [host?_withArenas]
  cases p.host? k with
  | none => rfl
  | some s => exact congrArg some (hg s _)

theorem Peers.transport (hp : p.Peers U p') : p'.transport = p.transport := by
  obtain ⟨f, rfl, -⟩ := hp
  rfl

theorem Peers.gridRuns (hp : p.Peers U p') : p'.gridRuns = p.gridRuns := by
  obtain ⟨f, rfl, -⟩ := hp
  rfl

theorem Peers.intakes (hp : p.Peers U p') : p'.intakes = p.intakes := by
  obtain ⟨f, rfl, -⟩ := hp
  rfl

theorem Peers.setArena (hp : p.Peers U p') {a a' : Arena} (ha : a.Agree (U h) a') :
    (p.setArena h a).Peers U (p'.setArena h a') := by
  obtain ⟨f, rfl, hagree⟩ := hp
  refine ⟨Function.update f h a', setArena_withArenas p f h a' a, fun k => ?_⟩
  by_cases hk : h = k
  · subst hk
    rw [arenaOf_setArena, arenaOf_setArena, host?_withArenas]
    cases p.host? h with
    | none => exact .refl _ _
    | some s => exact ha
  · rw [arenaOf_setArena_of_ne _ _ _ hk, arenaOf_setArena_of_ne _ _ _ hk]
    exact hagree k

namespace Steady

theorem pure (U : Nat → Set BufferUse) (p : Platform) (b : β) : Steady U p fun q => (q, b) :=
  ⟨fun _ => .refl _ _, fun _ _ => rfl, fun _ hp => hp⟩

theorem bind {g : Platform → Platform × β} {g' : β → Platform → Platform × γ} (hg : Steady U p g)
    (hg' : Steady U (g p).1 (g' (g p).2)) : Steady U p fun q => g' (g q).2 (g q).1 where
  framed k := (hg.framed k).trans (hg'.framed k)
  result p' hp := by
    rw [hg.result p' hp]
    exact hg'.result _ (hg.peers p' hp)
  peers p' hp := by
    rw [hg.result p' hp]
    exact hg'.peers _ (hg.peers p' hp)

theorem andThen {g : Platform → Platform × β} {both : Platform → Platform × γ}
    (g' : β → Platform → Platform × γ) (hg : Steady U p g) (hg' : Steady U (g p).1 (g' (g p).2))
    (heq : ∀ q, both q = g' (g q).2 (g q).1) : Steady U p both := by
  rw [funext heq]
  exact hg.bind hg'

theorem map {g : Platform → Platform × β} (hg : Steady U p g) (f : β → γ) :
    Steady U p fun q => ((g q).1, f (g q).2) :=
  ⟨hg.framed, fun p' hp => congrArg f (hg.result p' hp), hg.peers⟩

theorem congr {g g' : Platform → Platform × β} (hg : Steady U p g')
    (heq : ∀ q, p.Peers U q → g q = g' q) : Steady U p g where
  framed k := by
    rw [heq p (.refl U p)]
    exact hg.framed k
  result p' hp := by
    rw [heq p (.refl U p), heq p' hp]
    exact hg.result p' hp
  peers p' hp := by
    rw [heq p (.refl U p), heq p' hp]
    exact hg.peers p' hp

/-- What goes the same way whatever the arenas hold, and leaves them as they are. -/
theorem aloof {g : Platform → Platform × β}
    (hover : ∀ f, p.Peers U (p.withArenas f) → g (p.withArenas f) = ((g p).1.withArenas f, (g p).2))
    (hsame : ∀ k, ((g p).1.host? k).map HostState.arena = (p.host? k).map HostState.arena) :
    Steady U p g := by
  have harena : (g p).1.arenaOf = p.arenaOf := funext fun k => by rw [arenaOf, arenaOf, hsame]
  refine ⟨fun k => ?_, fun p' hp => ?_, fun p' hp => ?_⟩
  · rw [harena]
    exact .refl _ _
  · obtain ⟨f, rfl, hagree⟩ := hp
    rw [hover f ⟨f, rfl, hagree⟩]
  · obtain ⟨f, rfl, hagree⟩ := hp
    rw [hover f ⟨f, rfl, hagree⟩]
    refine ⟨f, rfl, fun k => ?_⟩
    have hoption : ∀ (b : Arena) (x y : Option HostState), x.map HostState.arena =
        y.map HostState.arena → x.map (fun _ => b) = y.map fun _ => b := by
      rintro b (_ | _) (_ | _) <;> simp
    have hexists := hoption (f k) _ _ (hsame k)
    rw [harena, arenaOf_withArenas, hexists, ← arenaOf_withArenas]
    exact hagree k

/-- Changing the arena of one host under its uses. -/
theorem arena {g : Arena → Arena × β} (hg : Arena.Obeys (U h) g) :
    Steady U p fun q => (q.setArena h (g (q.arenaOf h)).1, (g (q.arenaOf h)).2) where
  framed k := by
    by_cases hk : h = k
    · subst hk
      dsimp only
      rw [arenaOf_setArena]
      cases hs : p.host? h with
      | none =>
        have hnone : p.arenaOf h = ⟨#[]⟩ := by rw [arenaOf, hs]; rfl
        rw [hnone]
        exact .refl _ _
      | some s => exact hg.framed _
    · rw [arenaOf_setArena_of_ne _ _ _ hk]
      exact .refl _ _
  result p' hp := hg.result _ _ (hp.agree h)
  peers p' hp := hp.setArena (hg.agree _ _ (hp.agree h))

theorem look {r : Platform → β} (hr : ∀ q, p.Peers U q → r q = r p) :
    Steady U p fun q => (q, r q) :=
  ⟨fun _ => .refl _ _, hr, fun _ hp => hp⟩

end Steady

end Platform

end OpFlow
