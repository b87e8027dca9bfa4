import OpFlow.Proofs.Context.Failures

/-!
The contexts of whole programs. A context that is made for a program has all that its operations use,
and nothing else: no operation ever fails because something is missing, unless the code that it runs
says so.
-/
namespace OpFlow

open Machine (CallKey Effect World)

namespace Machine.Crew

variable {s t : Crew Primitive Platform Work} {ch : Choice Platform Work} {c : CallKey} {e : Error}
  {f : Platform → Platform × List (Effect Work)}

/-- If the error says that something is missing, then the operation of the call misses it, or the code
that the operation runs has reported it. -/
def Explains (s : Crew Primitive Platform Work) (c : CallKey) (e : Error) : Prop :=
  e.Missing → ∃ info op, s.Belongs c (.leaf info op) ∧
    (op.Misses (s.world.device.contextOf c.run.host) e ∨
      op.Reports (s.world.device.contextOf c.run.host) e)

theorem Explains.move (h : s.Explains c e) (hm : Move Platform.backend ch s t)
    (hch : ch.IsOccasional) : t.Explains c e := fun he => by
  obtain ⟨info, op, hop, hwhy⟩ := h he
  rw [← hm.contextOf fun change heq => (hch change heq).contextOf] at hwhy
  exact ⟨info, op, hm.belongs hop, hwhy⟩

/-- The failures of leaf operations are explained, and so is every error that the platform has in
store. -/
structure Explained (s : Crew Primitive Platform Work) : Prop where
  device : s.world.device.FailsWithin s.Explains
  ending : ∀ c e, s.IsLeaf c → s.Ending c (.error e) → s.Explains c e

theorem Explained.turn (h : s.Explained) (hs : s.Sound) (hf : Turn Platform.backend s ch f)
    (hch : ch.IsOccasional) : (f s.world.device).1.Yields s.Explains (f s.world.device).2 := by
  have hA : ∀ c (e : Error), ¬ e.Missing → s.Explains c e := fun c e hnot he => absurd he hnot
  cases hf with
  | idle => exact h.device.settles nofun
  | launch hi hop =>
    exact h.device.launch hA (fun e he _ => ⟨_, _, hs.belongs hop, .inl he⟩)
      fun e he _ => ⟨_, _, hs.belongs hop, .inr he⟩
  | perform => exact h.device.perform hA _
  | discard => exact h.device.discard hA _
  | outside => exact h.device.occasion hA (hch _ rfl)

theorem Explained.move (h : s.Explained) (ha : s.Arises) (hm : Move Platform.backend ch s t)
    (hch : ch.IsOccasional) : t.Explained := by
  have hs := ha.reachable.sound
  have ht := (ha.move hm hch).reachable.sound
  have hkeep : ∀ c e, s.Explains c e → t.Explains c e := fun c e he => he.move hm hch
  refine ⟨?_, fun c e hleaf hending => ?_⟩
  · obtain ⟨f, hf, hdevice, -⟩ := hm.turn
    exact hdevice ▸ (h.turn hs hf hch).platform.mono hkeep
  obtain ⟨info, a, hop⟩ := hleaf
  have hcall : s.Faces ch (.call c) → ∀ op, s.world.operation? c = some op → ∃ info a, op = .leaf info a :=
    fun _ op hop' => ⟨info, a, hop.unique ht (hm.belongs (hs.belongs hop'))⟩
  have hquiet : s.Shows c .quiet ∧ (s.Ending c (.error e) → s.Explains c e) := by
    by_cases hc : .launched c ∈ s.log
    · obtain ⟨op, hop'⟩ := ha.reachable.belongs_of_launched hc
      obtain rfl := (hm.belongs hop').unique ht hop
      obtain ⟨x, hx⟩ := ha.reachableWhile.shows c
      exact ⟨hx.leaf ⟨info, a, hop'⟩ ▸ hx, h.ending c e ⟨info, a, hop'⟩⟩
    · exact ⟨ha.quiet_of_not_launched hc, fun he => absurd he (ha.not_ending hc)⟩
  rcases hm.ending hs hquiet.1 hcall hending with hold | ⟨f, hf, hmem⟩ | ⟨-, text, heq⟩
  · exact hkeep c e (hquiet.2 hold)
  · exact hkeep c e ((h.turn hs hf hch).settles c e hmem)
  · exact fun he => nomatch (Except.error.inj heq ▸ he : Error.Missing (.panicked text)).kind

theorem explained_of_goes {w : World Primitive Platform Work} (hw : w.IsFresh)
    (hunused : w.device.IsUnused) (hg : Relation.ReflTransGen Goes { world := w } s) : s.Explained := by
  have hfresh : Arises { world := w } := .fresh hw hunused.toIsIdle
  induction hg with
  | refl => exact ⟨hunused.failsWithin, fun c e _ hending => absurd hending (hfresh.not_ending nofun)⟩
  | tail hg hlast ih =>
    obtain ⟨ch, hm, hch⟩ := hlast
    exact ih.move (hfresh.later hg) hm hch

theorem contextOf_of_goes (hg : Relation.ReflTransGen Goes s t) :
    t.world.device.contextOf = s.world.device.contextOf := by
  induction hg with
  | refl => rfl
  | tail _ hlast ih =>
    obtain ⟨ch, hm, hch⟩ := hlast
    exact (hm.contextOf fun change heq => (hch change heq).contextOf).trans ih

theorem program?_of_goes (hg : Relation.ReflTransGen Goes s t) (k : Nat) :
    t.world.program? k = s.world.program? k := by
  induction hg with
  | refl => rfl
  | tail _ hlast ih =>
    obtain ⟨ch, hm, -⟩ := hlast
    exact (hm.program? k).trans ih

/-- A context that is made for a program is complete and holds nothing else. It has a part exactly
if some operation of the program, at whatever depth, is of a kind that asks for it. If an operation
fails in a run with that context and says that a part is not set, or that its device is not in the
assignment, then an operation inside it runs code that has reported just this. And where the options do
not offer a part that is asked for, the context cannot be made, by a fault of configuration. -/
theorem forProgram_exact (o : RunOptions) (p : Program Primitive) (shared : Registry Handler) :
    (∀ ctx, RunContext.forProgram o p shared = .ok ctx →
      (∀ x : Part, ctx.has x ↔ ∃ op, p.Occurs op ∧ x.isFor op.kind) ∧
      ∀ {w : World Primitive Platform Work} {s : Crew Primitive Platform Work} {k : Nat}, w.IsFresh →
        w.device.IsUnused → w.program? k = some p → w.device.contextOf k = ctx →
        Relation.ReflTransGen Goes { world := w } s → ∀ {c op e}, c.run.host = k → s.Belongs c op →
          .ended c (.error e) ∈ s.log → e.Missing → ∃ info act e', op.Contains (.leaf info act) ∧
            act.Reports ctx e' ∧ e'.kind = e.kind ∧ e'.message = e.message) ∧
    ((∃ x op, p.Occurs op ∧ x.isFor op.kind ∧ ¬ o.Offers x) →
      ∃ e, RunContext.forProgram o p shared = .error e ∧ e.kind = .configuration) := by
  refine ⟨fun ctx hctx => ⟨RunContext.has_iff_needs hctx, ?_⟩, ?_⟩
  · intro w s k hw hunused hprogram hcontext hg c op e hhost hop hended hmissing
    have harises : s.Arises := .later (.fresh hw hunused.toIsIdle) hg
    have hexplained := explained_of_goes hw hunused hg
    -- the failure goes back to one of a leaf, which is the same but for what attribution adds
    obtain ⟨d, info, act, e', hd, hact, hcontains, hended', hkind, hmessage⟩ :=
      harises.reachableWhile.exists_leaf_of_ended
        (P := fun e' => e'.kind = e.kind ∧ e'.message = e.message)
        (fun {e' info} h => ⟨(Error.kind_attributedTo e' info).symm.trans h.1,
          (Error.message_attributedTo e' info).symm.trans h.2⟩)
        (fun h => nomatch h.1.trans hmissing.kind)
        (fun ⟨slice, device, hread⟩ h => nomatch
          (Arena.kind_of_read hread).symm.trans (h.1.trans hmissing.kind))
        hop hended ⟨rfl, rfl⟩
    refine ⟨info, act, e', hcontains, ?_, hkind, hmessage⟩
    obtain ⟨info', act', hact', hwhy⟩ := hexplained.ending d e' ⟨info, act, hact⟩ (.inr (.inr hended'))
      (hmissing.congr hkind hmessage)
    obtain ⟨rfl, rfl⟩ := Operation.leaf.inj (hact.unique harises.reachable.sound hact')
    rw [contextOf_of_goes hg, hd, hhost, hcontext] at hwhy
    obtain ⟨p', hp', hoccurs⟩ := harises.reachable.occurs_of_belongs hact
    rw [hd, hhost, program?_of_goes hg, hprogram] at hp'
    obtain rfl := Option.some.inj hp'
    exact hwhy.resolve_left (RunContext.not_misses_of_forProgram hctx hoccurs e')
  · rintro ⟨x, op, hop, hx, hnot⟩
    cases hc : RunContext.forProgram o p shared with
    | error e => exact ⟨e, rfl, RunContext.misconfigured_forProgram o p shared e hc⟩
    | ok ctx => exact absurd (RunContext.exists_forProgram_iff.1 ⟨ctx, hc⟩ x ⟨op, hop, hx⟩) hnot

def numbered : Program Primitive :=
  { ops := [.call { name := "outer" }
      { ops := [.leaf { name := "inner" } (.placeId .replica ⟨0, 0, 4⟩),
          .leaf { name := "code" } (.scripted .copy {} (.fail Part.collective.unset))] }] }

def placed : RunOptions where
  run := some ⟨1⟩
  assignment := some ⟨1, 1, [⟨0⟩]⟩
  transport := true

def numberedContext : RunContext where
  collective := some ⟨⟨1⟩, 0, ⟨0⟩, ⟨1, 1, [⟨0⟩]⟩⟩

def numberedWorld : World Primitive Platform Work where
  device := { hosts := #[{ arena := .ofSlots [[0, 0, 0, 0]], context := numberedContext }],
              transport := .ofTimeout 100 }
  hosts := #[{ program := numbered }]

def numberedCrew : Crew Primitive Platform Work :=
  (Crew.act Platform.backend 0)^[13] (({ world := numberedWorld } : Crew _ _ _).execute 0)

theorem forProgram_exact_numbered :
    RunContext.forProgram placed numbered Handler.builtin = .ok numberedContext ∧
    numberedContext.has .collective ∧
    (∃ op e, numberedCrew.Belongs ⟨⟨0, 0, []⟩, 0⟩ op ∧ e.Missing ∧
      .ended ⟨⟨0, 0, []⟩, 0⟩ (.error e) ∈ numberedCrew.log ∧ ∃ info act e',
        op.Contains (.leaf info act) ∧ act.Reports numberedContext e' ∧ e'.kind = e.kind ∧
          e'.message = e.message) ∧
    ∃ e, RunContext.forProgram {} numbered Handler.builtin = .error e ∧ e.kind = .configuration := by
  have hoccurs : numbered.Occurs (.leaf { name := "inner" } (.placeId .replica ⟨0, 0, 4⟩)) :=
    .nested (.here List.mem_cons_self) (List.mem_singleton_self _) List.mem_cons_self
  have hctx : RunContext.forProgram placed numbered Handler.builtin = .ok numberedContext := rfl
  have hfresh : numberedWorld.IsFresh :=
    ⟨rfl, by simp [numberedWorld], by simp [numberedWorld]⟩
  have hunused : numberedWorld.device.IsUnused := by
    refine ⟨⟨⟨rfl, rfl, fun k s hs => ?_⟩, rfl⟩, rfl, fun kind cell => ?_⟩
    · cases k with
      | zero =>
        obtain rfl := Option.some.inj hs
        rfl
      | succ k => cases hs
    · cases kind <;> simp [numberedWorld, Transport.contributions?, Transport.ofTimeout,
        Transport.get, Rendezvous.result?, Cells.result?]
  have hgoes : Relation.ReflTransGen Goes { world := numberedWorld } numberedCrew :=
    (Relation.ReflTransGen.single ⟨_, .execute rfl, fun change h => by cases h⟩).trans
      (goes_acts _ 0 13)
  have hbelongs : numberedCrew.Belongs ⟨⟨0, 0, []⟩, 0⟩ (.call { name := "outer" } _) :=
    ⟨numbered, List.mem_of_getElem? (i := 0) rfl, rfl⟩
  have hmissing : (Part.collective.unset.attributedTo { name := "code" }).Missing :=
    ⟨_, .inl ⟨.collective, rfl⟩, rfl, rfl⟩
  have hended : .ended ⟨⟨0, 0, []⟩, 0⟩
    (.error (Part.collective.unset.attributedTo { name := "code" })) ∈ numberedCrew.log := by decide +kernel
  obtain ⟨hparts, hfailures⟩ := (forProgram_exact placed numbered Handler.builtin).1 _ hctx
  exact ⟨hctx, (hparts .collective).2 ⟨_, hoccurs, rfl⟩,
    ⟨_, _, hbelongs, hmissing, hended,
      hfailures hfresh hunused (k := 0) rfl rfl hgoes rfl hbelongs hended hmissing⟩,
    (forProgram_exact {} numbered Handler.builtin).2
      ⟨.collective, _, hoccurs, rfl, by simp [RunOptions.Offers]⟩⟩

end Machine.Crew

end OpFlow
