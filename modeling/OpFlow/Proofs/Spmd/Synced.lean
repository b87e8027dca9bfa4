import OpFlow.Proofs.Spmd.Exchanges
import OpFlow.Proofs.Spmd.Ledger

/-!
Jobs stay in step. As long as no operation has failed, the arena of every host matches the execution
in lockstep, and the rooms hold what they would hold there, whatever the order in which the hosts go
on.
-/
namespace OpFlow

open Machine (CallKey Effect Progress Scene)

namespace Job

variable {J : Job} {x x' : Scene Platform Work} {c : CallKey} {h i j : Nat} {info : OpInfo}
  {op : Collective}

def IsDone (x : Scene Platform Work) (c : CallKey) : Prop :=
  c ∈ x.launched ∧ ((∃ o, .settle c o ∈ x.requests) ∨ Progress.owed (x.progress c) = 0)

def works (requests : List (Effect Work)) : Set Work := { w | .work w ∈ requests }

/-- The arenas and the exchanges of a job are as in lockstep. -/
structure Synced (J : Job) (x : Scene Platform Work) : Prop where
  arenas : ∀ h < J.replicas, J.Matches h (x.device.arenaOf h) fun i => IsDone x (key h i)
  exchanges : ∃ cell, J.Exchanges cell x.device.transport x.launched (works x.requests)

theorem isDone_of_ended (ho : x.Orderly J.plan) {o : Outcome} (hc : (c, o) ∈ x.ended) :
    IsDone x c := by
  refine ⟨ho.ended c o hc, .inr ?_⟩
  cases hq : x.progress c with
  | none => rfl
  | some q => exact ((ho.called c q hq).2 o hc).elim

/-- A call is not done that work is about. -/
theorem not_isDone_of_work (hl : J.Ledger x) {w : Work} {rest : List (Effect Work)}
    (hx : x.requests.Perm (.work w :: rest)) (hc : c ∈ w.calls) : ¬ IsDone x c := by
  rintro ⟨-, hdone⟩
  have howing : c ∈ owing x := Ledger.mem_owing_of_mem (hx.mem_iff.2 List.mem_cons_self) hc
  rcases hdone with ⟨o, ho⟩ | hzero
  · -- the call would be settled twice
    have hrest : .settle c o ∈ rest := (List.mem_cons.1 (hx.mem_iff.1 ho)).resolve_left (by simp)
    have htwice : 2 ≤ (owing x).count c := by
      have hperm : (owing x).Perm (w.calls ++ (rest.flatMap Effect.calls ++ x.device.awaiting)) := by
        rw [← List.append_assoc]
        exact (hx.flatMap_right Effect.calls).append_right _
      have hfirst := List.count_pos_iff.2 hc
      have hsecond : 0 < (rest.flatMap Effect.calls ++ x.device.awaiting).count c :=
        List.count_pos_iff.2 (List.mem_append_left _
          (List.mem_flatMap.2 ⟨_, hrest, List.mem_singleton_self c⟩))
      rw [hperm.count_eq, List.count_append]
      omega
    have := Ledger.owed_le_one (x.progress c)
    rw [hl.debts] at htwice
    omega
  · have := hl.debts c
    rw [hzero, List.count_eq_zero] at this
    exact this howing

theorem IsWellFormed.conflicts_graph (hJ : J.IsWellFormed) {r : Machine.RunKey}
    {region : Program Primitive} (hr : J.plan r region)
    (hc : (J.footprintOf i).conflicts (J.footprintOf j)) : region.graph.conflicts i j := by
  obtain ⟨h, host, hhost, -, rfl⟩ := hr
  have hops := hJ.program host (Array.mem_of_getElem? hhost)
  have hfootprint : ∀ {k}, (J.footprintOf k).touches ≠ [] →
      host.program.footprints[k]? = some (J.footprintOf k) := fun {k} hk => by
    cases hget : J.ops[k]? with
    | none => simp [footprintOf, hget, Footprint.touches] at hk
    | some p =>
      obtain ⟨info, a⟩ := p
      rw [Region.footprints, hops, footprintOf_eq hget]
      simp [hget, Operation.footprint, Leaf.footprint]
  obtain ⟨x, hi, hj, -⟩ := Footprint.conflicts_iff.1 hc
  obtain ⟨a, ha⟩ := Footprint.mem_places.1 hi
  obtain ⟨b, hb⟩ := Footprint.mem_places.1 hj
  exact Graph.conflicts_build_iff.2
    ⟨_, _, hfootprint (List.ne_nil_of_mem ha), hfootprint (List.ne_nil_of_mem hb), hc⟩

theorem IsWellFormed.ended_of_launched (hJ : J.IsWellFormed) (ho : x.Orderly J.plan)
    (hl : key h j ∈ x.launched) (hij : i < j)
    (hc : (J.footprintOf i).conflicts (J.footprintOf j)) : (key h i, .ok ()) ∈ x.ended := by
  obtain ⟨region, info, a, hr, -, hbefore⟩ := ho.planned _ hl
  exact hbefore i hij (hJ.conflicts_graph hr hc)

theorem IsWellFormed.isNext (hJ : J.IsWellFormed) (ho : x.Orderly J.plan)
    (hbefore : ∀ j < i, (J.footprintOf j).conflicts (J.footprintOf i) →
      (key h j, .ok ()) ∈ x.ended) (hnot : ¬ IsDone x (key h i)) :
    J.IsNext i fun j => IsDone x (key h j) :=
  ⟨fun j hj hc => isDone_of_ended ho (hbefore j hj hc), hnot, fun _ hij hc hdone =>
    hnot (isDone_of_ended ho (hJ.ended_of_launched ho hdone.1 hij hc))⟩

namespace Synced

theorem of_quiet (hs : J.Synced x) (hdevice : x'.device = x.device)
    (hlaunched : x'.launched = x.launched)
    (hworks : ∀ w, .work w ∈ x'.requests ↔ .work w ∈ x.requests)
    (hdone : ∀ c, IsDone x' c ↔ IsDone x c) : J.Synced x' := by
  have heq : works x'.requests = works x.requests := Set.ext hworks
  refine ⟨fun h hh => ?_, ?_⟩
  · simp only [hdevice, hdone]
    exact hs.arenas h hh
  · rw [hdevice, hlaunched, heq]
    exact hs.exchanges

/-- An operation that was next has taken effect on the arena of its host. -/
theorem arenas_done (hs : J.Synced x) (hJ : J.IsWellFormed) (hl : J.Ledger x) (hh : h < J.replicas)
    (hnext : J.IsNext i fun j => IsDone x (key h j)) {β : Type} {g : Arena → Arena × β}
    (hg : (J.footprintOf i).Confines g) (heq : J.lockstep (i + 1) h = (g (J.lockstep i h)).1)
    (hdevice : x'.device = x.device.setArena h (g (x.device.arenaOf h)).1)
    (hdone : ∀ c, IsDone x' c ↔ IsDone x c ∨ c = key h i) :
    ∀ k < J.replicas, J.Matches k (x'.device.arenaOf k) fun j => IsDone x' (key k j) := by
  intro k hk
  simp only [hdevice, hdone, key_inj]
  by_cases hkh : k = h
  · subst hkh
    obtain ⟨host, hhost⟩ := hJ.host hk
    rw [Platform.arenaOf_setArena_self _ _ _ (hl.host hhost)]
    simpa using (hs.arenas k hk).advance hJ hk hnext hg heq
  · rw [Platform.arenaOf_setArena_of_ne _ _ _ (Ne.symm hkh)]
    simpa [hkh] using hs.arenas k hk

/-- An operation is launched that is no collective. -/
theorem launch_other (hs : J.Synced x) (hJ : J.IsWellFormed) (hl : J.Ledger x)
    (ho : x.Orderly J.plan) {a : Primitive} {device : Platform}
    {r : Except String (List (Effect Work))} {p : List (Effect Work)} (hh : h < J.replicas)
    (hi : J.ops[i]? = some (info, a)) (ha : ∀ op, a ≠ .collective op) (hnew : key h i ∉ x.launched)
    (hbefore : ∀ j < i, (J.footprintOf j).conflicts (J.footprintOf i) →
      (key h j, .ok ()) ∈ x.ended)
    (hlaunch : Platform.launch (key h i) info a x.device = (device, r))
    (hp : p.Perm (Machine.Backend.opening (key h i) r ++ x.requests)) :
    J.Synced ⟨device, p, Function.update x.progress (key h i) (some .entered),
      insert (key h i) x.launched, x.ended⟩ := by
  obtain ⟨host, hhost⟩ := hJ.host hh
  obtain ⟨g, hg, hlocal⟩ := hJ.others i info a hi ha h host hhost
  have heq := hlocal x.device (x.device.arenaOf h) (hl.host hhost)
  rw [hlaunch] at heq
  obtain ⟨rfl, rfl⟩ := Prod.mk.inj heq
  obtain ⟨o, hopening⟩ : ∃ o, Machine.Backend.opening (key h i)
      ((g (x.device.arenaOf h)).2.map fun o => [Effect.settle (ι := Work) (key h i) o]) =
        [.settle (key h i) o] := by
    cases (g (x.device.arenaOf h)).2 with
    | error text => exact ⟨_, rfl⟩
    | ok o => exact ⟨o, rfl⟩
  rw [hopening] at hp
  have hworks : works p = works x.requests := Set.ext fun w => by
    simp [works, hp.mem_iff]
  have hnot : ¬ IsDone x (key h i) := fun hdone => hnew hdone.1
  have hlockstep : J.lockstep (i + 1) h = (g (J.lockstep i h)).1 :=
    advance_local hi ha hhost hlocal _
  refine ⟨hs.arenas_done hJ hl hh (hJ.isNext ho hbefore hnot) (footprintOf_eq hi ▸ hg) hlockstep rfl
    fun c => ?_, ?_⟩
  · by_cases hc : c = key h i
    · subst hc
      simp only [or_true, iff_true]
      exact ⟨.inl rfl, .inl ⟨o, hp.mem_iff.2 List.mem_cons_self⟩⟩
    · simp only [IsDone, hc, or_false, Function.update_of_ne hc, hp.mem_iff]
      simp [hc]
  · obtain ⟨cell, hx⟩ := hs.exchanges
    refine ⟨cell, ?_⟩
    rw [hworks]
    exact hx.launch_other fun info' op hop => ha op (by
      have := hi.symm.trans hop
      cases this
      rfl)

/-- A collective is launched, and its host joins the exchange. -/
theorem launch_collective (hs : J.Synced x) (hJ : J.IsWellFormed) (hl : J.Ledger x)
    (ho : x.Orderly J.plan) {device : Platform}
    {r : Except String (List (Effect Work))} {p : List (Effect Work)} (hh : h < J.replicas)
    (hi : J.Joins i info op) (hnew : key h i ∉ x.launched)
    (hnone : x.progress (key h i) = none)
    (hbefore : ∀ j < i, (J.footprintOf j).conflicts (J.footprintOf i) →
      (key h j, .ok ()) ∈ x.ended)
    (hlaunch : x.device.launchCollective (key h i) info op = (device, r))
    (hp : p.Perm (Machine.Backend.opening (key h i) r ++ x.requests))
    (hfail : ∀ c e, .settle c (.error e) ∉ p) :
    J.Synced ⟨device, p, Function.update x.progress (key h i) (some .entered),
      insert (key h i) x.launched, x.ended⟩ := by
  have hnot : ¬ IsDone x (key h i) := fun hdone => hnew hdone.1
  have hagree := (hs.arenas h hh).agreeOn hJ hh (hJ.isNext ho hbefore hnot)
  have hentry := hJ.entry_eq hi hh hl.alike
  have hoffer : J.offer op h (x.device.arenaOf h) = J.offer op h (J.lockstep i h) := by
    have hsource : .slot op.source.index ∈ (J.footprintOf i).places := by
      rw [footprintOf_eq hi]
      exact Footprint.mem_places.2 ⟨.read, by
        simp [Primitive.footprint, Footprint.touches, BufferUse.read]⟩
    rw [offer, offer, Arena.read_congr hagree.size (hagree.slot _ hsource)]
  rw [hoffer] at hentry
  cases hblocks : J.offer op h (J.lockstep i h) with
  | error e =>
    rw [hblocks] at hentry
    rw [Platform.launchCollective_of_error _ hentry] at hlaunch
    obtain ⟨rfl, rfl⟩ := Prod.mk.inj hlaunch
    exact (hfail _ _ (hp.mem_iff.2 List.mem_cons_self)).elim
  | ok blocks =>
    have hbrought : J.brought op (J.lockstep i h) h = blocks := by
      rw [brought, hblocks]
      rfl
    rw [hblocks] at hentry
    obtain ⟨timers, heq⟩ := Platform.launchCollective_of_ok _ hentry
    rw [hlaunch] at heq
    obtain ⟨rfl, rfl⟩ := Prod.mk.inj heq
    obtain ⟨cell, hx⟩ := hs.exchanges
    rcases hx.launch hJ hi hh hnew rfl with ⟨e, hrejected⟩ | ⟨cell', added, hadded, hx'⟩
    · rw [hbrought] at hrejected
      rw [hrejected] at hp
      exact (hfail _ _ (hp.mem_iff.2 List.mem_cons_self)).elim
    · rw [hbrought] at hadded hx'
      have hp' : p.Perm (.work added :: x.requests) := by
        rw [Machine.Backend.opening, hadded] at hp
        exact hp
      have hworks : works p = insert added (works x.requests) := Set.ext fun w => by
        simp [works, hp'.mem_iff]
      refine ⟨fun k hk => ?_, cell', by rw [hworks]; exact hx'⟩
      have hdone : ∀ device c, IsDone ⟨device, p, Function.update x.progress (key h i) (some .entered),
          insert (key h i) x.launched, x.ended⟩ c ↔ IsDone x c := fun device c => by
        by_cases hc : c = key h i
        · subst hc
          refine iff_of_false (fun hdone => ?_) hnot
          rcases hdone.2 with ⟨o, ho⟩ | hzero
          · have hmem : .settle (key h i) o ∈ x.requests :=
              (List.mem_cons.1 (hp'.mem_iff.1 ho)).resolve_left (by simp)
            have := hl.progress_of_owing
              (Ledger.mem_owing_of_mem hmem (List.mem_singleton_self _))
            simp [hnone] at this
          · simp [Progress.owed] at hzero
        · simp [IsDone, hc, hp'.mem_iff]
      simp only [hdone]
      exact hs.arenas k hk

/-- A participant gets its result, which is as in lockstep. -/
theorem handOut (hs : J.Synced x) (hJ : J.IsWellFormed) (hl : J.Ledger x) (ho : x.Orderly J.plan)
    {u : Work} {w : Participant} {ws : List Participant} {rest p : List (Effect Work)}
    {cell : Nat × List Nat → Nat} (hx : x.requests.Perm (.work u :: rest)) (hu : w.call ∈ u.calls)
    (hexchanges : J.Exchanges cell x.device.transport x.launched
      (insert (.handOut (w :: ws)) (works rest)))
    (hp : p.Perm ((x.device.handOut (w :: ws)).2 ++ rest))
    (hfail : ∀ c e, .settle c (.error e) ∉ p) :
    J.Synced { x with device := (x.device.handOut (w :: ws)).1, requests := p } := by
  obtain ⟨i, op, h, he⟩ := hexchanges.engaged _ (.inl rfl) w List.mem_cons_self
  obtain ⟨info, hi⟩ := he.joins
  have hcall : w.call = key h i := by rw [he.eq]
  have hreceived : x.device.received w = J.exchanged op (J.lockstep i) h := by
    have hresult := hexchanges.result_of_engages he hJ
      (hexchanges.handed _ (.inl rfl) w List.mem_cons_self)
    rw [Platform.received, Transport.contributions?, hresult, he.eq]
    rfl
  have hdestination : w.destination = op.destination := by rw [he.eq]
  have hhost : w.call.run.host = h := by rw [hcall]; rfl
  rw [Platform.handOut_cons, hreceived, hdestination, hhost] at hp ⊢
  obtain ⟨r, hr⟩ : ∃ r, (Arena.receive (J.exchanged op (J.lockstep i) h) op.destination
    (x.device.arenaOf h)).2 = r := ⟨_, rfl⟩
  rw [hr] at hp
  rcases r with (e | text) | _
  · exact (hfail _ _ (hp.mem_iff.2 List.mem_cons_self)).elim
  · obtain ⟨c, e, hmem⟩ : ∃ c e, .settle c (.error e) ∈ Platform.abandoned text (w :: ws) := by
      cases ws with
      | nil => exact ⟨_, _, List.mem_singleton_self _⟩
      | cons v ws => exact ⟨_, _, List.mem_cons_self⟩
    exact (hfail c e (hp.mem_iff.2 (List.mem_append_left _ hmem))).elim
  · have hp' : p.Perm (.settle w.call (.ok ()) :: .work (.handOut ws) :: rest) := hp
    have hworks : works p = insert (.handOut ws) (works rest) := Set.ext fun v => by
      simp [works, hp'.mem_iff]
    have hnext : J.IsNext i fun j => IsDone x (key h j) :=
      hJ.isNext ho (fun j hj hc => hJ.ended_of_launched ho he.launched hj hc)
        (hcall ▸ not_isDone_of_work hl hx hu)
    have hwrites : (J.footprintOf i).writes (.slot op.destination.index) := by
      rw [footprintOf_eq hi]
      simp [Primitive.footprint, Footprint.writes, Footprint.touches, BufferUse.write,
        Access.isWrite]
    refine ⟨hs.arenas_done hJ hl he.lt hnext (Arena.confines_receive hwrites _)
      (advance_collective hi _ h) rfl fun c => ?_, cell, ?_⟩
    · by_cases hc : c = key h i
      · subst hc
        simp only [or_true, iff_true]
        exact ⟨he.launched, .inl ⟨.ok (), hp'.mem_iff.2 (hcall ▸ List.mem_cons_self)⟩⟩
      · simp [IsDone, hc, hcall, hp'.mem_iff, hx.mem_iff]
    · rw [hworks]
      exact hexchanges.handOut

/-- Work is done that has to do with exchanges. -/
theorem perform (hs : J.Synced x) (hJ : J.IsWellFormed) (hl : J.Ledger x) (ho : x.Orderly J.plan)
    {w : Work} {rest p : List (Effect Work)} (hx : x.requests.Perm (.work w :: rest))
    (hp : p.Perm ((Platform.backend.perform w x.device).2.1 ++ rest))
    (hfail : ∀ c e, .settle c (.error e) ∉ p) :
    J.Synced { x with device := (Platform.backend.perform w x.device).1, requests := p } := by
  obtain ⟨cell, hexchanges⟩ := hs.exchanges
  have hworks : works x.requests = insert w (works rest) := Set.ext fun v => by
    simp [works, hx.mem_iff]
  rw [hworks] at hexchanges
  -- nothing is settled that was not, so nothing is done that was not
  have hsame : ∀ {device : Platform} {effects : List (Effect Work)}, p.Perm (effects ++ rest) →
      (∀ c o, .settle c o ∉ effects) → ∀ c, IsDone { x with device, requests := p } c ↔ IsDone x c :=
    fun hp hnone c => by
      simp [IsDone, hp.mem_iff, hx.mem_iff, hnone]
  cases w with
  | attend w =>
    cases hresult : x.device.transport.contributions? w.exchange.kind w.cell with
    | some r =>
      have hattend := Platform.attend_of_settled x.device hresult
      have hp' : p.Perm ((x.device.attend w).2 ++ rest) := hp
      have hgoal : (Platform.backend.perform (.attend w) x.device).1 = (x.device.attend w).1 := rfl
      rw [hattend] at hp'
      rw [hgoal, hattend]
      refine hs.handOut hJ hl ho hx (List.mem_singleton_self _) (hexchanges.arrive ?_) hp' hfail
      rw [← Transport.contributions?, hresult]
      exact Option.some_ne_none r
    | none =>
      have hattend := Platform.attend_of_pending x.device hresult
      have hp' : p.Perm ((x.device.attend w).2 ++ rest) := hp
      have hgoal : (Platform.backend.perform (.attend w) x.device).1 = (x.device.attend w).1 := rfl
      rw [hattend] at hp'
      rw [hgoal, hattend]
      have hleft : works p = works rest := Set.ext fun v => hp'.mem_iff
      refine ⟨fun h hh => ?_, cell, hleft ▸ hexchanges.register hresult⟩
      simp only [hsame hp' (fun _ _ => List.not_mem_nil)]
      exact hs.arenas h hh
  | resolve values w =>
    have hp' : p.Perm ([.work (.handOut ((x.device.transport.settle w.exchange.kind w.cell
        values).2 ++ [w]))] ++ rest) := hp
    have hleft : works p = insert (.handOut ((x.device.transport.settle w.exchange.kind w.cell
        values).2 ++ [w])) (works rest) := Set.ext fun v => by
      simp [works, hp'.mem_iff]
    refine ⟨fun h hh => ?_, cell, hleft ▸ hexchanges.settle hJ⟩
    simp only [hsame hp' (by simp)]
    exact hs.arenas h hh
  | handOut ws =>
    cases ws with
    | nil =>
      have hp' : p.Perm ([] ++ rest) := hp
      have hleft : works p = works rest := Set.ext fun v => hp'.mem_iff
      refine ⟨fun h hh => ?_, cell, hleft ▸ hexchanges.forget (fun _ => .inr)
        fun _ _ hv => hv.resolve_left (by simp)⟩
      simp only [hsame hp' (fun _ _ => List.not_mem_nil)]
      exact hs.arenas h hh
    | cons w ws => exact hs.handOut hJ hl ho hx List.mem_cons_self hexchanges hp hfail
  | thread => exact (hl.asked _ (hx.mem_iff.2 List.mem_cons_self)).elim

theorem move (hs : J.Synced x) {p : List (Effect Work)} {q : Option Progress}
    {ended : Set (CallKey × Outcome)} (hp : p.Perm x.requests)
    (hq : Progress.owed q = Progress.owed (x.progress c)) :
    J.Synced ⟨x.device, p, Function.update x.progress c q, x.launched, ended⟩ := by
  refine hs.of_quiet rfl rfl (fun w => hp.mem_iff) fun d => ?_
  by_cases hd : d = c
  · simp [IsDone, hd, hp.mem_iff, hq]
  · simp [IsDone, hd, hp.mem_iff]

theorem settle (hs : J.Synced x) (ho : x.Orderly J.plan) {p : List (Effect Work)} {o : Outcome}
    {q : Progress} {q' : Option Progress} {ended : Set (CallKey × Outcome)}
    (hx : x.requests.Perm (.settle c o :: p)) (hc : x.progress c = some q)
    (hq : Progress.owed q' = 0) :
    J.Synced ⟨x.device, p, Function.update x.progress c q', x.launched, ended⟩ := by
  refine hs.of_quiet rfl rfl (fun w => ?_) fun d => ?_
  · simp [hx.mem_iff]
  · by_cases hd : d = c
    · subst hd
      exact iff_of_true ⟨(ho.called d q hc).1, .inr (by simpa using hq)⟩
        ⟨(ho.called d q hc).1, .inl ⟨o, hx.mem_iff.2 List.mem_cons_self⟩⟩
    · simp [IsDone, hd, hx.mem_iff]

/-- Whatever happens next, a job stays in step unless an operation fails. -/
theorem step (hs : J.Synced x) (hJ : J.IsWellFormed) (hl : J.Ledger x) (ho : x.Orderly J.plan)
    (hx : Scene.Step Platform.backend J.plan x x') (hf : ¬ Failing x') : J.Synced x' := by
  have hfail : ∀ c e, .settle c (.error e) ∉ x'.requests := fun c e hmem => hf ⟨c, e, .inl hmem⟩
  cases hx with
  | idle hp =>
    exact hs.of_quiet rfl rfl (fun w => hp.mem_iff) fun c => by simp [IsDone, hp.mem_iff]
  | @launch c info a region device r p hr hop hnew hnone hbefore hlaunch hp =>
    obtain ⟨h, hh, hc, hi⟩ := hJ.of_plan hr hop
    obtain ⟨i, hci⟩ : ∃ i, c.node = i := ⟨_, rfl⟩
    have hconflicts : ∀ j < i, (J.footprintOf j).conflicts (J.footprintOf i) →
        (key h j, .ok ()) ∈ x.ended := fun j hj hconflict => by
      have := hbefore j (hci ▸ hj) (hJ.conflicts_graph hr (hci ▸ hconflict))
      rwa [hc] at this
    rw [hci] at hc hi
    subst hc
    by_cases hcollective : ∃ op, a = .collective op
    · obtain ⟨op, rfl⟩ := hcollective
      exact hs.launch_collective hJ hl ho hh hi hnew hnone hconflicts hlaunch hp hfail
    · exact hs.launch_other hJ hl ho hh hi (fun op hop => hcollective ⟨op, hop⟩) hnew hconflicts
        hlaunch hp
  | @await c q p hc hq hp =>
    refine hs.move hp ?_
    rw [hc]
    cases q with
    | entered | awaited => rfl
    | settled o => exact (hq o rfl).elim
  | finish hc hp => exact hs.move hp (by rw [hc]; rfl)
  | settle hx hc | resume hx hc => exact hs.settle ho hx hc rfl
  | void hx hc => exact (hl.not_void hx hc).elim
  | work hx hp => exact hs.perform hJ hl ho hx hp hfail
  | submit hx => exact (hl.asked _ (hx.mem_iff.2 List.mem_cons_self)).elim
  | lose hx => exact (hl.asked _ (hx.mem_iff.2 List.mem_cons_self)).elim

/-- Before anything has happened a job is in step. -/
theorem start (hJ : J.IsWellFormed) : J.Synced ⟨J.world.device, [], fun _ => none, ∅, ∅⟩ := by
  obtain ⟨timeout, htransport⟩ := hJ.transport
  have hnone : ∀ k, (∀ room, (J.world.device.transport.get k).group? room = none) ∧
      ∀ d, (J.world.device.transport.get k).cells.waiters d = [] := fun k => by
    rw [htransport]
    cases k <;> exact ⟨fun _ => rfl, fun _ => rfl⟩
  have hdone : ∀ c, ¬ IsDone ⟨J.world.device, [], fun _ => none, ∅, ∅⟩ c := fun c hc => hc.1
  refine ⟨fun h hh => ?_, fun _ => 0, ⟨fun i op g hm => .vacant ((hnone _).1 _) fun _ _ => id,
    fun k room G hG => ?_, fun _ _ _ _ _ _ _ _ _ hsome => ?_, fun _ hw => ?_, fun k d w hw => ?_,
    fun _ hw => ?_, fun _ _ hw => ?_⟩⟩
  · simp only [hdone]
    exact matches_start hJ hh
  · rw [(hnone k).1 room] at hG
    cases hG
  · obtain ⟨k, -, hk⟩ := hsome
    exact hk.elim
  · exact (List.not_mem_nil hw).elim
  · rw [(hnone k).2 d] at hw
    cases hw
  · exact (List.not_mem_nil hw).elim
  · exact (List.not_mem_nil hw).elim

end Synced

theorem course (hJ : J.IsWellFormed)
    (hx : Relation.ReflTransGen (Scene.Step Platform.backend J.plan)
      ⟨J.world.device, [], fun _ => none, ∅, ∅⟩ x) :
    J.Ledger x ∧ x.Orderly J.plan ∧ (J.Synced x ∨ Failing x) := by
  induction hx with
  | refl => exact ⟨.start hJ, Scene.orderly_start, .inl (.start hJ)⟩
  | @tail x x' _ hstep ih =>
    obtain ⟨hl, ho, hcourse⟩ := ih
    refine ⟨hl.step hJ hstep, ho.step hstep, ?_⟩
    by_cases hf : Failing x'
    · exact .inr hf
    · exact .inl ((hcourse.resolve_right fun hfail => hf (hfail.step hl hstep)).step hJ hl ho hstep hf)

end Job

end OpFlow
