import OpFlow.Proofs.Frame.Occasions
import OpFlow.Proofs.Frame.Touched

/-!
Declared uses cover all that is done. A move of a crew that keeps to some uses of each host writes
arenas only where these uses say so, goes the same way whatever the other slots hold, and leaves a
crew that keeps to them. So does a run; and the uses that a run needs are those of the operations
that it calls, which are declared by all operations around them and by the program.
-/
namespace OpFlow

open Machine (CallKey Crew Effect Item World)

/-- Nothing is in flight on the platform. -/
structure Platform.IsQuiet (p : Platform) : Prop where
  waiting : p.transport.waiting = []
  gridRuns : p.gridRuns = #[]
  takers : ∀ k s, p.host? k = some s → s.feeds.infeed.waiters = []

theorem Platform.IsQuiet.custody {p : Platform} (h : p.IsQuiet) (U : Nat → Set BufferUse) :
    p.Custody U where
  waiting t ht := by
    rw [h.waiting] at ht
    cases ht
  gridRuns i g hg := by simp [h.gridRuns] at hg
  takers k s hs t ht := by
    rw [h.takers k s hs] at ht
    cases ht

/-- All operations of the programs are of the kinds that do something. -/
def Machine.World.IsGenuine (w : World Primitive Platform Work) : Prop :=
  ∀ k p info op, w.program? k = some p → p.Occurs (.leaf info op) → op.IsGenuine

namespace Machine.Crew

open Platform (Steady Occasion)

variable {U : Nat → Set BufferUse} {s t : Crew Primitive Platform Work} {ch : Choice Platform Work}
  {cs : List (Choice Platform Work)} {w : World Primitive Platform Work}
  {f : Platform → Platform × List (Effect Work)}

/-- Whatever happens outside is an occasion. -/
def Choice.IsOccasional (ch : Choice Platform Work) : Prop :=
  ∀ change, ch = .outside change → Occasion change

/-- What is in flight and what is to be done keep to the uses of their hosts. -/
structure Keeps (U : Nat → Set BufferUse) (s : Crew Primitive Platform Work) : Prop where
  custody : s.world.device.Custody U
  owed : ∀ x, s.Owes x → x.Declared U
  contexts : ∀ k, (s.world.device.contextOf k).Framed

/-- What a choice reads and what it calls keep to the uses of their hosts. -/
structure Permits (U : Nat → Set BufferUse) (s : Crew Primitive Platform Work)
    (ch : Choice Platform Work) : Prop where
  read : ∀ item c op slice, s.Faces ch item → s.world.Steers item c →
    s.world.operation? c = some op → op.steering? = some slice → .read slice ∈ U c.run.host
  launch : ∀ c info op, s.Faces ch (.call c) → s.world.operation? c = some (.leaf info op) →
    op.IsGenuine ∧ ∀ u ∈ op.footprint.buffers, u ∈ U c.run.host
  outside : ch.IsOccasional

theorem Turn.steady (hf : Turn Platform.backend s ch f) (hs : s.Keeps U) (hch : s.Permits U ch) :
    Steady U s.world.device f ∧ (f s.world.device).1.Hands U (f s.world.device).2 := by
  cases hf with
  | idle => exact ⟨.pure U _ _, hs.custody.settles (by simp)⟩
  | @launch i c info op rest hi hop =>
    obtain ⟨hgenuine, hU⟩ := hch.launch c info op ⟨i, rest, rfl, hi⟩ hop
    exact ⟨(Platform.steady_launch hgenuine (hs.contexts _) hU).map fun r => r.toOption.getD [],
      hs.custody.hands_launch hgenuine (hs.contexts _) hU⟩
  | perform hx =>
    exact ⟨(Platform.steady_perform hs.custody (hs.owed _ hx)).map Prod.fst,
      hs.custody.hands_perform (hs.owed _ hx)⟩
  | discard hx => exact ⟨Platform.steady_discard _, hs.custody.hands_discard _⟩
  | outside => exact ⟨(hch.outside _ rfl).steady hs.custody, (hch.outside _ rfl).hands hs.custody⟩

theorem Keeps.answersAlike (hs : s.Keeps U) (hch : s.Permits U ch) {p : Platform}
    (hp : s.world.device.Peers U p) : AnswersAlike Platform.backend s ch p where
  read item c op slice hface hsteers hop hslice :=
    (hp.agree c.run.host).read (hch.read item c op slice hface hsteers hop hslice) rfl
  launch c info op hface hop :=
    let ⟨hgenuine, hU⟩ := hch.launch c info op hface hop
    (Platform.steady_launch hgenuine (hs.contexts _) hU).result p hp
  perform x hx := (Platform.steady_perform hs.custody (hs.owed x hx)).result p hp
  discard x _ := (Platform.steady_discard x).result p hp
  outside change hchange := ((hch.outside change hchange).steady hs.custody).result p hp

theorem Move.keeps (hm : Move Platform.backend ch s t) (hs : s.Keeps U) (hch : s.Permits U ch) :
    t.Keeps U ∧
    (∀ k, (s.world.device.arenaOf k).Framed (U k) (t.world.device.arenaOf k)) ∧
    ∀ p, s.world.device.Peers U p → ∃ p', Move Platform.backend ch (s.on p) (t.on p') ∧
      t.world.device.Peers U p' := by
  have hcontexts := hm.contextOf fun change h p => (hch.outside change h).contextOf p
  obtain ⟨f, hf, hdevice, howes, halike⟩ := hm.turn
  obtain ⟨hsteady, hhands⟩ := hf.steady hs hch
  refine ⟨⟨hdevice ▸ hhands.custody, fun x hx => ?_, hcontexts ▸ hs.contexts⟩,
    hdevice ▸ hsteady.framed, fun p hp => ⟨_, halike p (hs.answersAlike hch hp), ?_⟩⟩
  · rcases howes x hx with hold | ⟨e, he, hwork⟩
    · exact hs.owed x hold
    · exact hhands.work e he x hwork
  · exact hdevice ▸ hsteady.peers p hp

theorem Move.permits (hm : Move Platform.backend ch s t) (hreach : Reachable Platform.backend s)
    (hgenuine : s.world.IsGenuine) (hU : ∀ k, t.touched k ⊆ U k) (hch : ch.IsOccasional) :
    s.Permits U ch where
  read item c op slice hface hsteers hop hslice :=
    hU _ (hm.mem_touched hreach.sound (hm.launched_of_steers hreach.sound hface hsteers hop) hop
      (Operation.read_mem_ownUses hslice))
  launch c info op hface hop := by
    obtain ⟨p, hp, hoccurs⟩ := hreach.occurs_of_belongs (hreach.sound.belongs hop)
    exact ⟨hgenuine _ p info op hp hoccurs, fun u hu =>
      hU _ (hm.mem_touched hreach.sound (hm.launched_of_faces hface hop) hop hu)⟩
  outside := hch

theorem Follows.isGenuine (hf : Follows Platform.backend { world := w } cs s) (h : w.IsGenuine) :
    s.world.IsGenuine := fun k p info op hp => h k p info op (hf.program? k ▸ hp)

/-- A run keeps to any uses that hold those of the operations that it has called. -/
theorem Follows.keeps (hw : w.IsFresh) (hquiet : w.device.IsQuiet) (hgenuine : w.IsGenuine)
    (hctx : ∀ k, (w.device.contextOf k).Framed)
    (hf : Follows Platform.backend { world := w } cs s) (hcs : ∀ ch ∈ cs, ch.IsOccasional)
    (hU : ∀ k, s.touched k ⊆ U k) :
    s.Keeps U ∧
    (∀ k, (w.device.arenaOf k).Framed (U k) (s.world.device.arenaOf k)) ∧
    ∀ p, w.device.Peers U p → ∃ p', Follows Platform.backend { world := w.on p } cs (s.on p') ∧
      s.world.device.Peers U p' := by
  induction hf with
  | nil =>
    refine ⟨⟨hquiet.custody U, fun x hx => ?_, hctx⟩, fun k => .refl _ _, fun p hp => ⟨p, .nil, hp⟩⟩
    rcases hx with ⟨items, hitems, -⟩ | hx
    · cases hitems
    · obtain ⟨r, hr, hx⟩ := List.mem_flatMap.1 hx
      rw [hw.queued r (Array.mem_toList_iff.1 hr)] at hx
      cases hx
  | @snoc cs ch s t hf hm ih =>
    obtain ⟨hkeeps, hframed, hpeers⟩ := ih (fun ch hch => hcs ch (by simp [hch]))
      fun k => (hm.touched_subset k).trans (hU k)
    obtain ⟨hkeeps', hframed', hpeers'⟩ := hm.keeps hkeeps
      (hm.permits (hf.reachable hw) (hf.isGenuine hgenuine) hU (hcs ch (by simp)))
    refine ⟨hkeeps', fun k => (hframed k).trans (hframed' k), fun p hp => ?_⟩
    obtain ⟨p', hf', hp'⟩ := hpeers p hp
    obtain ⟨p'', hm', hp''⟩ := hpeers' p' hp'
    exact ⟨p'', hf'.snoc hm', hp''⟩

/-- Whatever a run does is covered by what is declared. Each operation that it calls, at whatever
depth, declares nothing that the operations around it and the program do not declare, with the same
access. Of each arena only bytes change that lie in slices which operations that were called write
themselves. And what is in the slots that these operations do not name makes no difference. -/
theorem Follows.coverage (hw : w.IsFresh) (hquiet : w.device.IsQuiet) (hgenuine : w.IsGenuine)
    (hctx : ∀ k, (w.device.contextOf k).Framed)
    (hf : Follows Platform.backend { world := w } cs s) (hcs : ∀ ch ∈ cs, ch.IsOccasional) :
    (∀ c, .launched c ∈ s.log → ∃ op p, s.Belongs c op ∧ w.program? c.run.host = some p ∧
      op.footprint.Within p.footprint ∧ ∀ d, d.Encloses c → .launched d ∈ s.log ∧
        ∃ op', s.Belongs d op' ∧ op.footprint.Within op'.footprint) ∧
    (∀ k, ∀ u ∈ s.touched k, ∃ p, w.program? k = some p ∧ u ∈ p.footprint.buffers) ∧
    (∀ k, (w.device.arenaOf k).Framed (s.touched k) (s.world.device.arenaOf k)) ∧
    ∀ p, w.device.Peers s.touched p → ∃ p', Follows Platform.backend { world := w.on p } cs (s.on p') ∧
      s.world.device.Peers s.touched p' := by
  have hreach := hf.reachable hw
  have hprogram : ∀ {c op}, s.Belongs c op →
      ∃ p, w.program? c.run.host = some p ∧ op.footprint.Within p.footprint := fun hop => by
    rw [← hf.program?]
    exact hreach.within_program hop
  refine ⟨fun c hc => ?_, fun k u hu => ?_,
    (Follows.keeps hw hquiet hgenuine hctx hf hcs fun k => subset_rfl).2⟩
  · obtain ⟨op, hop⟩ := hreach.belongs_of_launched hc
    obtain ⟨p, hp, hwithin⟩ := hprogram hop
    exact ⟨op, p, hop, hp, hwithin, fun d hd => hreach.within_of_encloses hop hd⟩
  · obtain ⟨c, op, -, rfl, hop, hu⟩ := hu
    obtain ⟨p, hp, hwithin⟩ := hprogram hop
    exact ⟨p, hp, hwithin.buffers (op.ownUses_subset hu)⟩

def choice : Operation Primitive :=
  .conditional { name := "choose" } ⟨0, 0, 1⟩ .truth
    [{ ops := [.leaf { name := "inc" } (.kernel "inc" [⟨1, 0, 1⟩] [⟨2, 0, 1⟩] ⟨1, 1, 1⟩)] },
      { ops := [.leaf { name := "move" } (.copy ⟨3, 0, 1⟩ ⟨2, 0, 1⟩)] }]

def choosing : Program Primitive := { ops := [.call { name := "outer" } { ops := [choice] }] }

def choosingPlatform (unused : UInt8) : Platform where
  hosts := #[{ arena := .ofSlots [[1], [7], [0], [9], [unused]],
               context := { kernels := some Kernel.builtin } }]
  transport := .ofTimeout 100

def choosingWorld (unused : UInt8) : World Primitive Platform Work where
  device := choosingPlatform unused
  hosts := #[{ program := choosing }]

def choosingRun : Crew Primitive Platform Work :=
  (Crew.act Platform.backend 0)^[20] (({ world := choosingWorld 0 } : Crew _ _ _).execute 0)

theorem isGenuine_choosingWorld (unused : UInt8) : (choosingWorld unused).IsGenuine := by
  have hops : ∀ op, choosing.Occurs op → op ∈ choosing.ops ∨ op = choice ∨
      op ∈ choice.nested.flatMap Region.ops := fun op hop => by
    induction hop with
    | here h => exact .inl h
    | nested _ hregion hinner ih =>
      rcases ih with ih | rfl | ih
      · obtain rfl := List.mem_singleton.1 ih
        obtain rfl := List.mem_singleton.1 hregion
        exact .inr (.inl (List.mem_singleton.1 hinner))
      · exact .inr (.inr (List.mem_flatMap.2 ⟨_, hregion, hinner⟩))
      · simp only [choice, Operation.nested, List.flatMap_cons, List.flatMap_nil, List.append_nil,
          List.singleton_append, List.mem_cons, List.not_mem_nil, or_false] at ih
        rcases ih with rfl | rfl <;> cases hregion
  intro k p info op hp hop
  obtain ⟨h, hh, rfl⟩ := Option.map_eq_some_iff.1 hp
  obtain rfl : h = { program := choosing } := by
    simpa [choosingWorld] using Array.mem_of_getElem? hh
  rcases hops _ hop with h | h | h
  · cases List.mem_singleton.1 h
  · cases h
  · simp only [choice, Operation.nested, List.flatMap_cons, List.flatMap_nil, List.append_nil,
      List.singleton_append, List.mem_cons, List.not_mem_nil, or_false,
      Operation.leaf.injEq] at h
    rcases h with ⟨-, rfl⟩ | ⟨-, rfl⟩ <;> trivial

theorem framed_choosingPlatform (unused : UInt8) (k : Nat) :
    ((choosingPlatform unused).contextOf k).Framed := by
  cases k with
  | zero =>
    refine ⟨fun ks hks => ?_, nofun⟩
    obtain rfl := Option.some.inj hks
    exact Kernel.framed_builtin
  | succ k => exact ⟨nofun, nofun⟩

theorem isQuiet_choosingPlatform (unused : UInt8) : (choosingPlatform unused).IsQuiet := by
  refine ⟨rfl, rfl, fun k s hs => ?_⟩
  cases k with
  | zero =>
    obtain rfl := Option.some.inj hs
    rfl
  | succ k => cases hs

theorem coverage_choosing :
    (choosingRun.world.device.arenaOf 0).byte? 2 0 ≠ ((choosingPlatform 0).arenaOf 0).byte? 2 0 ∧
    (∃ slice, .write slice ∈ choosingRun.touched 0 ∧ slice.Covers 2 0) ∧
    ∃ cs p', Follows Platform.backend { world := choosingWorld 1 } cs (choosingRun.on p') ∧
      (choosingRun.world.device.arenaOf 0).Agree (choosingRun.touched 0) (p'.arenaOf 0) := by
  obtain ⟨cs, hf, hcs⟩ : ∃ cs, Follows Platform.backend { world := choosingWorld 0 } cs choosingRun ∧
      ∀ ch ∈ cs, ∀ change, ch ≠ .outside change := exists_follows_acts rfl 0 20
  obtain ⟨-, hdeclared, hframed, hpeers⟩ := Follows.coverage
    ⟨rfl, by simp [choosingWorld], by simp [choosingWorld]⟩ (isQuiet_choosingPlatform 0)
    (isGenuine_choosingWorld 0) (framed_choosingPlatform 0) hf
    fun ch hch change heq => absurd heq (hcs ch hch change)
  have hlow : ∀ u ∈ choosing.footprint.buffers, u.slice.index < 4 := by decide
  have hsame : ∀ i < 4, ((choosingPlatform 1).arenaOf 0).slots[i]? =
      ((choosingPlatform 0).arenaOf 0).slots[i]? := by decide
  have hlast : (choosingPlatform 0).Peers choosingRun.touched (choosingPlatform 1) := by
    refine ⟨fun _ => .ofSlots [[1], [7], [0], [9], [1]], rfl, fun k => ?_⟩
    cases k with
    | zero =>
      refine ⟨rfl, fun u hu => ?_⟩
      obtain ⟨p, hp, hmem⟩ := hdeclared 0 u hu
      obtain rfl := Option.some.inj hp
      exact hsame _ (hlow u hmem)
    | succ k => exact .refl _ _
  have hne : (choosingRun.world.device.arenaOf 0).byte? 2 0 ≠
      ((choosingPlatform 0).arenaOf 0).byte? 2 0 := by decide +kernel
  obtain ⟨p', hf', hp'⟩ := hpeers _ hlast
  exact ⟨hne, (hframed 0).byte 2 0 hne, cs, p', hf', hp'.agree 0⟩

end Machine.Crew

end OpFlow
