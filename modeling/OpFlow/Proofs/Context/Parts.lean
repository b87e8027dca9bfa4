import OpFlow.Context
import OpFlow.Proofs.Operation.Occurrence

/-!
What a context that is made for a program holds. It has four parts that may be missing; it has each
of them exactly if an operation of the program asks for it, at whatever depth, and it cannot be made
if the options do not offer a part that is asked for. The device of a run that exchanges is in the
assignment.
-/
namespace OpFlow

def RunContext.has (c : RunContext) : Part → Bool
  | .kernels => c.kernels.isSome
  | .feeds => c.feeds
  | .collective => c.collective.isSome
  | .customCall => c.customCall.isSome

/-- Some operation of a program asks for a part. -/
def Region.Needs {α : Type} [Leaf α] (p : Program α) (x : Part) : Prop :=
  ∃ op, p.Occurs op ∧ x.isFor op.kind

/-- The options let a part be made: there is a resolver or a pair of feeds; the device agrees with the
stream; and for exchanges there are besides an assignment that has the device, the number of the run,
and a transport. -/
def RunOptions.Offers (o : RunOptions) : Part → Prop
  | .kernels => o.kernels.isSome
  | .feeds => o.feeds
  | .collective => ∃ n a, o.resolveOrdinal = .ok n ∧ o.assignment = some a ∧ o.run.isSome ∧
    o.transport ∧ ⟨n⟩ ∈ a.devices
  | .customCall => ∃ n, o.resolveOrdinal = .ok n

/-! ### Faults of configuration -/

def Error.Misconfigured {β : Type} (r : Except Error β) : Prop :=
  ∀ e, r = .error e → e.kind = .configuration

namespace Error.Misconfigured

variable {β γ : Type}

theorem ok (x : β) : Misconfigured (.ok x) := nofun

theorem error {text : String} : Misconfigured (.error (.configuration text) : Except Error β) :=
  fun _ h => Except.error.inj h ▸ rfl

theorem bind {r : Except Error β} {f : β → Except Error γ} (h : Misconfigured r)
    (hf : ∀ x, Misconfigured (f x)) : Misconfigured (r >>= f) := by
  cases r with
  | error e => exact fun e' he' => h e' (Except.error.inj he' ▸ rfl)
  | ok x => exact hf x

end Error.Misconfigured

open Error (Misconfigured)

theorem RunOptions.misconfigured_resolveOrdinal (o : RunOptions) :
    Misconfigured o.resolveOrdinal := by
  unfold resolveOrdinal
  split
  · split
    · exact .error
    · exact .ok _
  all_goals exact .ok _

namespace DeviceAssignment

variable (a : DeviceAssignment) (d : DeviceId)

theorem misconfigured_logicalId : Misconfigured (a.logicalId d) := by
  unfold logicalId
  split
  · exact .ok _
  · exact .error

theorem exists_logicalId_iff : (∃ place, a.logicalId d = .ok place) ↔ d ∈ a.devices := by
  rw [logicalId, ← List.isSome_idxOf?]
  cases a.devices.idxOf? d <;> simp

end DeviceAssignment

/-! ### The parts -/

namespace CollectiveContext

variable {o : RunOptions} {c : CollectiveContext}

theorem misconfigured_create (o : RunOptions) : Misconfigured (create o) := by
  unfold create
  refine o.misconfigured_resolveOrdinal.bind fun n => ?_
  cases o.assignment with
  | none => exact .error
  | some a =>
    cases o.run with
    | none => exact .error
    | some r =>
      dsimp only
      split
      · exact .error
      · exact (a.misconfigured_logicalId _).bind fun _ => .ok _

theorem create_eq_ok_iff : create o = .ok c ↔ ∃ n a r, o.resolveOrdinal = .ok n ∧
    o.assignment = some a ∧ o.run = some r ∧ o.transport ∧ ⟨n⟩ ∈ a.devices ∧
      c = ⟨r, n, ⟨n⟩, a⟩ := by
  unfold create
  cases o.resolveOrdinal with
  | error e => simp [bind, Except.bind]
  | ok n =>
    cases o.assignment with
    | none => simp [bind, Except.bind, throw, throwThe, MonadExceptOf.throw]
    | some a =>
      cases o.run with
      | none => simp [bind, Except.bind, throw, throwThe, MonadExceptOf.throw]
      | some r =>
        cases o.transport with
        | false => simp [bind, Except.bind, throw, throwThe, MonadExceptOf.throw]
        | true =>
          have hmem := a.exists_logicalId_iff ⟨n⟩
          cases hl : a.logicalId ⟨n⟩ with
          | error e =>
            rw [hl] at hmem
            have hn : (⟨n⟩ : DeviceId) ∉ a.devices := fun hn => by simpa using hmem.2 hn
            simp [bind, Except.bind, hl, hn]
          | ok place =>
            rw [hl] at hmem
            have hn : (⟨n⟩ : DeviceId) ∈ a.devices := hmem.1 ⟨place, rfl⟩
            simp [bind, Except.bind, pure, Except.pure, hl, hn, eq_comm]

theorem exists_logicalId_of_create (h : create o = .ok c) :
    ∃ place, c.assignment.logicalId c.device = .ok place := by
  obtain ⟨n, a, r, -, -, -, -, hmem, rfl⟩ := create_eq_ok_iff.1 h
  exact (a.exists_logicalId_iff _).2 hmem

theorem exists_create_iff : (∃ c, create o = .ok c) ↔ o.Offers .collective := by
  simp only [create_eq_ok_iff, RunOptions.Offers, Option.isSome_iff_exists]
  constructor
  · rintro ⟨c, n, a, r, hn, ha, hr, ht, hmem, -⟩
    exact ⟨n, a, hn, ha, ⟨r, hr⟩, ht, hmem⟩
  · rintro ⟨n, a, hn, ha, ⟨r, hr⟩, ht, hmem⟩
    exact ⟨_, n, a, r, hn, ha, hr, ht, hmem, rfl⟩

end CollectiveContext

namespace CallContext

variable {shared : Registry Handler}

theorem misconfigured_create (o : RunOptions) : Misconfigured (create o shared) :=
  o.misconfigured_resolveOrdinal.bind fun _ => .ok _

theorem exists_create_iff {o : RunOptions} :
    (∃ c, create o shared = .ok c) ↔ o.Offers .customCall := by
  unfold create RunOptions.Offers
  cases o.resolveOrdinal <;> simp [bind, Except.bind, pure, Except.pure]

end CallContext

/-! ### Contexts -/

namespace RunContext

variable {α : Type} {o : RunOptions} {p : Program α} {shared : Registry Handler} {c : RunContext}

theorem whenNeeded_eq_ok_iff {β : Type} {needed : Bool} {make : Except Error β} {x : Option β} :
    whenNeeded needed make = .ok x ↔
      (needed = true ∧ ∃ y, make = .ok y ∧ x = some y) ∨ (needed = false ∧ x = none) := by
  cases needed <;> cases make <;> simp [whenNeeded, eq_comm]

theorem misconfigured_whenNeeded {β : Type} {make : Except Error β} (h : Misconfigured make)
    (needed : Bool) : Misconfigured (whenNeeded needed make) := by
  cases needed with
  | false => exact .ok _
  | true =>
    have : whenNeeded true make = make >>= fun x => .ok (some x) := by cases make <;> rfl
    exact this ▸ h.bind fun _ => .ok _

variable [Leaf α]

theorem misconfigured_forProgram (o : RunOptions) (p : Program α) (shared : Registry Handler) :
    Misconfigured (forProgram o p shared) := by
  unfold forProgram
  refine (misconfigured_whenNeeded (CollectiveContext.misconfigured_create o) _).bind fun _ => ?_
  refine (misconfigured_whenNeeded (CallContext.misconfigured_create o) _).bind fun _ => ?_
  dsimp only
  split
  · exact .error
  · refine (misconfigured_whenNeeded ?_ _).bind fun _ => .ok _
    cases o.kernels with
    | none => exact .error
    | some k => exact .ok k

def offeredKernels (o : RunOptions) : Except Error (Registry Kernel) :=
  match o.kernels with
  | some k => .ok k
  | none => .error (.configuration "program launches host kernels but no resolver was provided")

theorem exists_offeredKernels_iff : (∃ k, offeredKernels o = .ok k) ↔ o.Offers .kernels := by
  unfold offeredKernels RunOptions.Offers
  cases o.kernels <;> simp

/-- What a context that is made for a program consists of. -/
theorem forProgram_eq_ok_iff : forProgram o p shared = .ok c ↔
    whenNeeded (p.containsKind (Part.isFor .collective)) (CollectiveContext.create o) =
        .ok c.collective ∧
      whenNeeded (p.containsKind (Part.isFor .customCall)) (CallContext.create o shared) =
        .ok c.customCall ∧
      c.feeds = p.containsKind (Part.isFor .feeds) ∧ (c.feeds → o.feeds) ∧
      whenNeeded (p.containsKind (Part.isFor .kernels)) (offeredKernels o) = .ok c.kernels ∧
      c.threadRunner = o.threadRunner ∧ c.runner = o.runner := by
  obtain ⟨kernels, feeds, threadRunner, runner, collective, customCall⟩ := c
  have heq : forProgram o p shared =
      (whenNeeded (p.containsKind (Part.isFor .collective)) (CollectiveContext.create o) >>=
        fun collective =>
      whenNeeded (p.containsKind (Part.isFor .customCall)) (CallContext.create o shared) >>=
        fun customCall =>
      if p.containsKind (Part.isFor .feeds) && !o.feeds then
        .error (.configuration "program uses infeed/outfeed but no xfeed manager was provided")
      else whenNeeded (p.containsKind (Part.isFor .kernels)) (offeredKernels o) >>= fun kernels =>
        .ok ⟨kernels, p.containsKind (Part.isFor .feeds), o.threadRunner, o.runner, collective,
          customCall⟩) := rfl
  rw [heq]
  cases whenNeeded (p.containsKind (Part.isFor .collective)) (CollectiveContext.create o) with
  | error e => simp [bind, Except.bind]
  | ok x =>
    cases whenNeeded (p.containsKind (Part.isFor .customCall)) (CallContext.create o shared) with
    | error e => simp [bind, Except.bind]
    | ok y =>
      cases p.containsKind (Part.isFor .feeds) <;> cases o.feeds <;> cases feeds <;>
        cases whenNeeded (p.containsKind (Part.isFor .kernels)) (offeredKernels o) <;>
          simp [bind, Except.bind, eq_comm, and_assoc, and_left_comm, and_comm]

theorem containsKind_iff_needs {x : Part} : p.containsKind x.isFor ↔ p.Needs x :=
  Region.containsKind_iff

theorem isSome_of_whenNeeded {β : Type} {x : Part} {make : Except Error β} {y : Option β}
    (h : whenNeeded (p.containsKind x.isFor) make = .ok y) : y.isSome ↔ p.Needs x := by
  rw [← containsKind_iff_needs]
  rcases whenNeeded_eq_ok_iff.1 h with ⟨hneeded, z, -, rfl⟩ | ⟨hnot, rfl⟩
  · simp [hneeded]
  · simp [hnot]

theorem has_iff_needs (h : forProgram o p shared = .ok c) (x : Part) : c.has x ↔ p.Needs x := by
  obtain ⟨hcollective, hcustomCall, hfeeds, -, hkernels, -, -⟩ := forProgram_eq_ok_iff.1 h
  cases x with
  | kernels => exact isSome_of_whenNeeded hkernels
  | feeds => rw [has, hfeeds, containsKind_iff_needs]
  | collective => exact isSome_of_whenNeeded hcollective
  | customCall => exact isSome_of_whenNeeded hcustomCall

theorem exists_logicalId_of_forProgram (h : forProgram o p shared = .ok c) {ctx : CollectiveContext}
    (hctx : c.collective = some ctx) : ∃ place, ctx.assignment.logicalId ctx.device = .ok place := by
  have hcollective := (forProgram_eq_ok_iff.1 h).1
  rcases whenNeeded_eq_ok_iff.1 hcollective with ⟨-, z, hz, heq⟩ | ⟨-, heq⟩
  · obtain rfl := Option.some.inj (hctx.symm.trans heq)
    exact CollectiveContext.exists_logicalId_of_create hz
  · cases hctx.symm.trans heq

theorem exists_whenNeeded_iff {β : Type} {x : Part} {make : Except Error β}
    (hmake : (∃ y, make = .ok y) ↔ o.Offers x) :
    (∃ y, whenNeeded (p.containsKind x.isFor) make = .ok y) ↔ (p.Needs x → o.Offers x) := by
  rw [← containsKind_iff_needs, ← hmake]
  cases p.containsKind x.isFor <;> cases make <;> simp [whenNeeded]

/-- A context can be made for a program exactly if the options offer all that its operations ask
for. -/
theorem exists_forProgram_iff :
    (∃ c, forProgram o p shared = .ok c) ↔ ∀ x, p.Needs x → o.Offers x := by
  have hcollective := exists_whenNeeded_iff (p := p) CollectiveContext.exists_create_iff (o := o)
  have hcreate : (∃ y, CallContext.create o shared = .ok y) ↔ o.Offers .customCall :=
    CallContext.exists_create_iff
  have hcustomCall := exists_whenNeeded_iff (p := p) hcreate
  have hkernels := exists_whenNeeded_iff (p := p) exists_offeredKernels_iff (o := o)
  constructor
  · rintro ⟨c, hc⟩ x
    obtain ⟨hc1, hc2, hfeeds, hoffered, hc3, -, -⟩ := forProgram_eq_ok_iff.1 hc
    cases x with
    | kernels => exact hkernels.1 ⟨_, hc3⟩
    | feeds => exact fun hneeds => hoffered (hfeeds ▸ containsKind_iff_needs.2 hneeds)
    | collective => exact hcollective.1 ⟨_, hc1⟩
    | customCall => exact hcustomCall.1 ⟨_, hc2⟩
  · intro h
    obtain ⟨x, hx⟩ := hcollective.2 (h .collective)
    obtain ⟨y, hy⟩ := hcustomCall.2 (h .customCall)
    obtain ⟨z, hz⟩ := hkernels.2 (h .kernels)
    exact ⟨⟨z, p.containsKind (Part.isFor .feeds), o.threadRunner, o.runner, x, y⟩,
      forProgram_eq_ok_iff.2 ⟨hx, hy, rfl, fun hfeeds => h .feeds (containsKind_iff_needs.1 hfeeds),
        hz, rfl, rfl⟩⟩

end RunContext

end OpFlow
