import OpFlow.Proofs.Spmd.Job
import OpFlow.Proofs.Spmd.Passing

/-!
What is owed in a job. A call that is in flight and has not ended is going to be settled by exactly
one thing that has been asked for, or by exactly one participant who waits for an exchange, and no
other call is. So an operation cannot be forgotten, and a failure cannot get lost.
-/
namespace OpFlow

open Machine (CallKey Effect Progress Scene)

/-- How often a call that has come so far is still to be settled. -/
def Machine.Progress.owed : Option Progress → Nat
  | some .entered | some .awaited => 1
  | some (.settled _) | none => 0

namespace Job

variable {J : Job} {x x' : Scene Platform Work}

/-- The calls that something in a scene is going to settle. -/
def owing (x : Scene Platform Work) : List CallKey :=
  x.requests.flatMap Effect.calls ++ x.device.awaiting

/-- What is owed in a scene of a job, and what it takes to pay it. -/
structure Ledger (J : Job) (x : Scene Platform Work) : Prop where
  alike : J.world.device.Alike x.device
  asked : ∀ e ∈ x.requests, Effect.IsExchange e
  attended : ∀ t, .work (.attend t) ∈ x.requests →
    t.cell < (x.device.transport.get t.exchange.kind).cells.size
  sized : ∀ k, (x.device.transport.get k).Sized
  debts : ∀ c, (owing x).count c = Progress.owed (x.progress c)

namespace Ledger

theorem host (hl : J.Ledger x) {h : Nat} {host : HostState}
    (hhost : J.world.device.host? h = some host) :
    x.device.host? h = some { host with arena := x.device.arenaOf h } := by
  rw [hl.alike h, hhost]
  rfl

theorem owed_le_one (q : Option Progress) : Progress.owed q ≤ 1 := by
  rcases q with _ | _ | _ | _ <;> simp [Progress.owed]

theorem progress_of_owing (hl : J.Ledger x) {c : CallKey} (hc : c ∈ owing x) :
    x.progress c = some .entered ∨ x.progress c = some .awaited := by
  have hpos := List.count_pos_iff.2 hc
  rw [hl.debts c] at hpos
  rcases h : x.progress c with _ | _ | _ | _ <;> simp_all [Progress.owed]

theorem mem_owing_of_mem {e : Effect Work} {c : CallKey} (he : e ∈ x.requests)
    (hc : c ∈ Effect.calls e) : c ∈ owing x :=
  List.mem_append_left _ (List.mem_flatMap.2 ⟨e, he, hc⟩)

theorem not_void (hl : J.Ledger x) {c : CallKey} {o : Outcome} {p : List (Effect Work)}
    (hx : x.requests.Perm (.settle c o :: p)) :
    ¬ ∀ q, x.progress c = some q → ∃ o', q = .settled o' := fun hc => by
  have howing : c ∈ owing x :=
    mem_owing_of_mem (hx.mem_iff.2 List.mem_cons_self) (List.mem_singleton_self c)
  rcases hl.progress_of_owing howing with h | h <;> obtain ⟨o', ho'⟩ := hc _ h <;> cases ho'

theorem of_subset (hl : J.Ledger x) {p : List (Effect Work)} {progress : CallKey → Option Progress}
    {launched : Set CallKey} {ended : Set (CallKey × Outcome)} (hp : p ⊆ x.requests)
    (hdebts : ∀ c, (p.flatMap Effect.calls ++ x.device.awaiting).count c =
      Progress.owed (progress c)) : J.Ledger ⟨x.device, p, progress, launched, ended⟩ :=
  ⟨hl.alike, fun e he => hl.asked e (hp he), fun t ht => hl.attended t (hp ht), hl.sized, hdebts⟩

theorem move (hl : J.Ledger x) {p : List (Effect Work)} (hp : p.Perm x.requests) {c : CallKey}
    {q : Option Progress} (hq : Progress.owed q = Progress.owed (x.progress c))
    {launched : Set CallKey} {ended : Set (CallKey × Outcome)} :
    J.Ledger ⟨x.device, p, Function.update x.progress c q, launched, ended⟩ := by
  refine hl.of_subset hp.subset fun d => ?_
  rw [((hp.flatMap_right Effect.calls).append_right _).count_eq d]
  refine (hl.debts d).trans ?_
  by_cases hd : d = c
  · rw [hd, Function.update_self, hq]
  · rw [Function.update_of_ne hd]

/-- A call is paid. -/
theorem pay (hl : J.Ledger x) {c : CallKey} {o : Outcome} {p : List (Effect Work)}
    (hx : x.requests.Perm (.settle c o :: p)) {q : Option Progress} (hq : Progress.owed q = 0)
    {launched : Set CallKey} {ended : Set (CallKey × Outcome)} :
    J.Ledger ⟨x.device, p, Function.update x.progress c q, launched, ended⟩ := by
  have hcount : ∀ d, (owing x).count d =
      (p.flatMap Effect.calls ++ x.device.awaiting).count d + if c = d then 1 else 0 := fun d => by
    have hperm : (owing x).Perm (c :: (p.flatMap Effect.calls ++ x.device.awaiting)) :=
      (hx.flatMap_right Effect.calls).append_right _
    rw [hperm.count_eq, List.count_cons]
    simp
  refine hl.of_subset (fun e he => hx.mem_iff.2 (List.mem_cons_of_mem _ he)) fun d => ?_
  have hd := hcount d
  rw [hl.debts d] at hd
  by_cases hdc : d = c
  · subst hdc
    have := owed_le_one (x.progress d)
    rw [Function.update_self, hq]
    rw [if_pos rfl] at hd
    omega
  · rw [if_neg (Ne.symm hdc)] at hd
    rw [Function.update_of_ne hdc]
    omega

/-- Work that has to do with exchanges is carried out. -/
theorem carryOut (hl : J.Ledger x) {w : Work} {rest p : List (Effect Work)}
    (hx : x.requests.Perm (.work w :: rest))
    (hp : p.Perm ((Platform.backend.perform w x.device).2.1 ++ rest)) :
    J.Ledger { x with device := (Platform.backend.perform w x.device).1, requests := p } := by
  have hmem : .work w ∈ x.requests := hx.mem_iff.2 List.mem_cons_self
  have hrest : rest ⊆ x.requests := fun e he => hx.mem_iff.2 (List.mem_cons_of_mem _ he)
  have hw := hl.asked _ hmem
  have hcontinues := x.device.perform_continues hw
  have hpasses := x.device.perform_passes hw fun t ht => hl.attended t (ht ▸ hmem)
  refine ⟨hl.alike.trans hcontinues.alike, fun e he => ?_, fun t ht => ?_, fun k key g hg => ?_,
    fun c => ?_⟩
  · rcases List.mem_append.1 (hp.mem_iff.1 he) with he | he
    · exact hcontinues.asked e he
    · exact hl.asked e (hrest he)
  · rcases List.mem_append.1 (hp.mem_iff.1 ht) with ht | ht
    · exact (hcontinues.attend t ht).elim
    · rw [hcontinues.size]
      exact hl.attended t (hrest ht)
  · rw [Rendezvous.group?, hcontinues.groups] at hg
    rw [hcontinues.size]
    exact hl.sized k key g hg
  · have hold : (owing x).Perm (w.calls ++ (rest.flatMap Effect.calls ++ x.device.awaiting)) := by
      rw [← List.append_assoc]
      exact (hx.flatMap_right Effect.calls).append_right _
    rw [← hl.debts c, hold.count_eq c]
    exact (hpasses.perm hp).count_eq c

/-- Launching an operation of the program. -/
theorem opens (hJ : J.IsWellFormed) (hl : J.Ledger x) {c : CallKey} {region : Program Primitive}
    {info : OpInfo} {a : Primitive} {device : Platform} {r : Except String (List (Effect Work))}
    (hr : J.plan c.run region) (hop : region.ops[c.node]? = some (.leaf info a))
    (hlaunch : Platform.launch c info a x.device = (device, r)) :
    x.device.Opens device c (Machine.Backend.opening c r) := by
  obtain ⟨h, hh, hc, hget⟩ := hJ.of_plan hr hop
  obtain ⟨host, hhost⟩ := hJ.host hh
  by_cases hcollective : ∃ op, a = .collective op
  · obtain ⟨op, rfl⟩ := hcollective
    have hopens := x.device.launchCollective_opens hl.sized c info op
    rw [Platform.launch] at hlaunch
    rwa [hlaunch] at hopens
  · obtain ⟨g, -, hg⟩ := hJ.others c.node info a hget (fun op hop => hcollective ⟨op, hop⟩) h host hhost
    rw [← hc] at hg
    have hrun : c.run.host = h := by rw [hc]; rfl
    have heq := hg x.device (x.device.arenaOf h) (by rw [hrun]; exact hl.host hhost)
    rw [hlaunch] at heq
    obtain ⟨rfl, rfl⟩ := Prod.mk.inj heq
    have hopening : ∃ o, Machine.Backend.opening c
        ((g (x.device.arenaOf h)).2.map fun o => [Effect.settle (ι := Work) c o]) =
          [.settle c o] := by
      cases (g (x.device.arenaOf h)).2 with
      | error text => exact ⟨_, rfl⟩
      | ok o => exact ⟨o, rfl⟩
    obtain ⟨o, ho⟩ := hopening
    rw [ho]
    exact x.device.opens_settle hl.sized _ _ c o

theorem step (hJ : J.IsWellFormed) (hl : J.Ledger x)
    (hx : Scene.Step Platform.backend J.plan x x') : J.Ledger x' := by
  cases hx with
  | idle hp =>
    refine hl.of_subset hp.subset fun c => ?_
    rw [← hl.debts c]
    exact ((hp.flatMap_right _).append_right _).count_eq c
  | @launch c info a region device r p hr hop hnew hnone hbefore hlaunch hp =>
    have hopens := hl.opens hJ hr hop hlaunch
    refine ⟨hl.alike.trans hopens.alike, fun e he => ?_, fun t ht => ?_, hopens.sized, fun d => ?_⟩
    · rcases List.mem_append.1 (hp.mem_iff.1 he) with he | he
      · exact hopens.asked e he
      · exact hl.asked e he
    · rcases List.mem_append.1 (hp.mem_iff.1 ht) with ht | ht
      · exact hopens.attended t ht
      · exact Nat.lt_of_lt_of_le (hl.attended t ht) (hopens.size _)
    · have hperm : (p.flatMap Effect.calls ++ device.awaiting).Perm (c :: owing x) :=
        hopens.passes.perm hp
      rw [owing, hperm.count_eq, List.count_cons, hl.debts d]
      dsimp only
      by_cases hd : d = c
      · subst hd
        simp [hnone, Progress.owed]
      · rw [Function.update_of_ne hd, if_neg (by simpa using Ne.symm hd), Nat.add_zero]
  | @await c q p hc hq hp =>
    refine hl.move hp ?_
    rw [hc]
    cases q with
    | entered | awaited => rfl
    | settled o => exact (hq o rfl).elim
  | finish hc hp => exact hl.move hp (by rw [hc]; rfl)
  | settle hx hc => exact hl.pay hx rfl
  | resume hx hc => exact hl.pay hx rfl
  | void hx hc => exact (hl.not_void hx hc).elim
  | work hx hp => exact hl.carryOut hx hp
  | submit hx => exact (hl.asked _ (hx.mem_iff.2 List.mem_cons_self)).elim
  | lose hx => exact (hl.asked _ (hx.mem_iff.2 List.mem_cons_self)).elim

/-- Nothing is owed before anything has happened. -/
theorem start (hJ : J.IsWellFormed) : J.Ledger ⟨J.world.device, [], fun _ => none, ∅, ∅⟩ := by
  obtain ⟨timeout, htransport⟩ := hJ.transport
  have hcells : ∀ k, (J.world.device.transport.get k).cells = #[] ∧
      ∀ key, (J.world.device.transport.get k).group? key = none := fun k => by
    rw [htransport]
    cases k <;> exact ⟨rfl, fun _ => rfl⟩
  have hwaiting : J.world.device.transport.waiting = [] := by
    simp only [Transport.waiting, List.flatMap_eq_nil_iff, List.mem_map]
    rintro r ⟨k, -, rfl⟩
    rw [(hcells k).1]
    rfl
  refine ⟨.refl _, by simp, by simp, fun k key g hg => ?_, fun c => ?_⟩
  · rw [(hcells k).2] at hg
    cases hg
  · simp [owing, Platform.awaiting, hwaiting, Progress.owed]

end Ledger

/-- An operation has failed, whether or not its call has noticed yet. -/
def Failing (x : Scene Platform Work) : Prop :=
  ∃ c e, .settle c (.error e) ∈ x.requests ∨ x.progress c = some (.settled (.error e)) ∨
    (c, .error e) ∈ x.ended

/-- A failure does not get lost. -/
theorem Failing.step (hf : Failing x) (hl : J.Ledger x)
    (hx : Scene.Step Platform.backend J.plan x x') : Failing x' := by
  have hkept : ∀ {c : CallKey} {e : Error} {f : Effect Work} {p : List (Effect Work)},
      .settle c (.error e) ∈ x.requests → x.requests.Perm (f :: p) →
      f = .settle c (.error e) ∨ .settle c (.error e) ∈ p := fun hmem hperm =>
    (List.mem_cons.1 (hperm.mem_iff.1 hmem)).imp_left Eq.symm
  obtain ⟨c, e, hfail⟩ := hf
  cases hx with
  | idle hp => exact ⟨c, e, hfail.imp_left hp.mem_iff.2⟩
  | @launch d info a region device r p hr hop hnew hnone hbefore hlaunch hp =>
    refine ⟨c, e, hfail.imp (fun h => hp.mem_iff.2 (List.mem_append_right _ h))
      (Or.imp_left fun h => ?_)⟩
    have hne : c ≠ d := fun heq => by
      rw [heq, hnone] at h
      cases h
    exact (Function.update_of_ne hne _ _).trans h
  | @await d q p hd hq hp =>
    refine ⟨c, e, hfail.imp hp.mem_iff.2 (Or.imp_left fun h => ?_)⟩
    have hne : c ≠ d := fun heq => by
      rw [heq, hd] at h
      exact hq _ (Option.some.inj h)
    exact (Function.update_of_ne hne _ _).trans h
  | @finish d o p hd hp =>
    rcases hfail with h | h | h
    · exact ⟨c, e, .inl (hp.mem_iff.2 h)⟩
    · by_cases hcd : c = d
      · rw [hcd, hd] at h
        cases h
        exact ⟨d, e, .inr (.inr (.inl rfl))⟩
      · exact ⟨c, e, .inr (.inl ((Function.update_of_ne hcd _ _).trans h))⟩
    · exact ⟨c, e, .inr (.inr (.inr h))⟩
  | @settle d o p hx hd =>
    rcases hfail with h | h | h
    · rcases hkept h hx with heq | hmem
      · cases heq
        exact ⟨c, e, .inr (.inl (Function.update_self _ _ _))⟩
      · exact ⟨c, e, .inl hmem⟩
    · have hne : c ≠ d := fun heq => by
        rw [heq, hd] at h
        cases h
      exact ⟨c, e, .inr (.inl ((Function.update_of_ne hne _ _).trans h))⟩
    · exact ⟨c, e, .inr (.inr h)⟩
  | @resume d o p hx hd =>
    rcases hfail with h | h | h
    · rcases hkept h hx with heq | hmem
      · cases heq
        exact ⟨c, e, .inr (.inr (.inl rfl))⟩
      · exact ⟨c, e, .inl hmem⟩
    · have hne : c ≠ d := fun heq => by
        rw [heq, hd] at h
        cases h
      exact ⟨c, e, .inr (.inl ((Function.update_of_ne hne _ _).trans h))⟩
    · exact ⟨c, e, .inr (.inr (.inr h))⟩
  | void hx hd => exact (hl.not_void hx hd).elim
  | work hx hp =>
    refine ⟨c, e, hfail.imp_left fun h => ?_⟩
    rcases hkept h hx with heq | hmem
    · cases heq
    · exact hp.mem_iff.2 (List.mem_append_right _ hmem)
  | submit hx => exact (hl.asked _ (hx.mem_iff.2 List.mem_cons_self)).elim
  | lose hx => exact (hl.asked _ (hx.mem_iff.2 List.mem_cons_self)).elim

end Job

end OpFlow
