import OpFlow.Proofs.Collective.Changes
import OpFlow.Proofs.Spmd.Lockstep

/-!
What goes on in the rooms of a job. Each team of each collective has a room of its own, in which its
members meet once: nobody has come yet, or some have and wait for the others, or all have come and
the results are there or about to be. What they bring is what they would bring in lockstep.
-/
namespace OpFlow

open Machine (CallKey Effect)

namespace Job

@[simp] theorem key_inj {h h' i i' : Nat} : key h i = key h' i' ↔ h = h' ∧ i = i' := by
  simp [key]

variable (J : Job)

def contributions (i : Nat) (op : Collective) (g : List Nat) : List (List Bytes) :=
  g.map fun k => J.brought op (J.lockstep i k) k

/-- A group holds what those members of a team have brought that have launched the collective. -/
structure Fills (i : Nat) (op : Collective) (g : List Nat) (launched : Set CallKey)
    (G : RendezvousGroup (List Bytes)) : Prop where
  promised : G.promised = true
  arrived : G.arrived = G.slots.countP Option.isSome
  size : G.slots.length = g.length
  came : ∀ k ∈ g, key k i ∈ launched →
    G.slots[g.idxOf k]? = some (some (J.brought op (J.lockstep i k) k))
  free : ∀ k ∈ g, key k i ∉ launched → G.slots[g.idxOf k]? = some none

variable {J} {i j h k : Nat} {info : OpInfo} {op op' : Collective} {g g' : List Nat}
  {launched launched' : Set CallKey} {G : RendezvousGroup (List Bytes)}

theorem fills_empty (hl : ∀ k ∈ g, key k i ∉ launched) (cell : Nat) :
    J.Fills i op g launched (.empty cell g.length) := by
  refine ⟨rfl, ?_, by simp [RendezvousGroup.empty], fun k hk hcame => (hl k hk hcame).elim,
    fun k hk _ => ?_⟩
  · simp [RendezvousGroup.empty, List.countP_replicate]
  · simp [RendezvousGroup.empty, List.idxOf_lt_length_iff.2 hk]

namespace Fills

theorem congr (hf : J.Fills i op g launched G)
    (hl : ∀ k ∈ g, key k i ∈ launched' ↔ key k i ∈ launched) : J.Fills i op g launched' G :=
  ⟨hf.promised, hf.arrived, hf.size, fun k hk hcame => hf.came k hk ((hl k hk).1 hcame),
    fun k hk hnew => hf.free k hk fun hcame => hnew ((hl k hk).2 hcame)⟩

/-- One more member comes. -/
theorem add (hf : J.Fills i op g launched G) (hk : k ∈ g) (hnew : key k i ∉ launched) :
    J.Fills i op g (insert (key k i) launched)
      (G.add (g.idxOf k) (J.brought op (J.lockstep i k) k)) := by
  have hslot := hf.free k hk hnew
  obtain ⟨hlt, hget⟩ := List.getElem?_eq_some_iff.1 hslot
  have hother : ∀ k' ∈ g, k' ≠ k → G.slots[g.idxOf k']? =
      (G.slots.set (g.idxOf k) (some (J.brought op (J.lockstep i k) k)))[g.idxOf k']? :=
    fun k' hk' hne => (List.getElem?_set_ne fun heq => hne ((List.idxOf_inj hk).1 heq).symm).symm
  refine ⟨hf.promised, ?_, ?_, fun k' hk' hcame => ?_, fun k' hk' hfree => ?_⟩
  · simp [RendezvousGroup.add, hf.arrived, List.countP_set, hlt, hget]
  · simp [RendezvousGroup.add, hf.size]
  · by_cases hne : k' = k
    · subst hne
      simp [RendezvousGroup.add, hlt]
    · rw [RendezvousGroup.add, ← hother k' hk' hne]
      exact hf.came k' hk' (hcame.resolve_left (by simpa using hne))
  · have hne : k' ≠ k := fun heq => hfree (.inl (by rw [heq]))
    rw [RendezvousGroup.add, ← hother k' hk' hne]
    exact hf.free k' hk' fun hcame => hfree (.inr hcame)

theorem all (hf : J.Fills i op g launched G) (hfull : g.length ≤ G.arrived) :
    ∀ k ∈ g, key k i ∈ launched := fun k hk => by
  by_contra hnew
  have hcount : G.slots.countP Option.isSome = G.slots.length :=
    Nat.le_antisymm List.countP_le_length (by rw [hf.size, ← hf.arrived]; exact hfull)
  have := List.countP_eq_length.1 hcount none (List.mem_of_getElem? (hf.free k hk hnew))
  cases this

theorem slots_eq (hf : J.Fills i op g launched G) (hg : g.Nodup)
    (hall : ∀ k ∈ g, key k i ∈ launched) : G.slots = (J.contributions i op g).map some := by
  refine List.ext_getElem? fun m => ?_
  rw [contributions, List.map_map, List.getElem?_map]
  cases hget : g[m]? with
  | none =>
    rw [List.getElem?_eq_none_iff] at hget
    exact List.getElem?_eq_none (hf.size ▸ hget)
  | some k =>
    obtain ⟨hlt, rfl⟩ := List.getElem?_eq_some_iff.1 hget
    have hcame := hf.came g[m] (List.getElem_mem hlt) (hall _ (List.getElem_mem hlt))
    rwa [hg.idxOf_getElem m hlt] at hcame

theorem drained (hf : J.Fills i op g launched G) (hg : g.Nodup)
    (hall : ∀ k ∈ g, key k i ∈ launched) : G.slots.filterMap id = J.contributions i op g := by
  rw [hf.slots_eq hg hall, List.filterMap_map]
  exact List.filterMap_some

theorem exists_missing (hf : J.Fills i op g launched G) (hg : g.Nodup) (hlt : G.arrived < g.length) :
    ∃ k ∈ g, key k i ∉ launched := by
  by_contra hall
  push Not at hall
  have hfull : G.slots.countP Option.isSome = G.slots.length := by
    rw [hf.slots_eq hg hall, List.countP_eq_length]
    simp
  rw [hf.arrived, hfull, hf.size] at hlt
  exact Nat.lt_irrefl _ hlt

end Fills

/-- How far the members of a team have come with their exchange: what their rendezvous holds for
their room, and of their cell. -/
inductive Phase (J : Job) (i : Nat) (op : Collective) (g : List Nat) (cell : Nat)
    (r : Rendezvous (List Bytes) Participant) (launched : Set CallKey) (works : Set Work) : Prop
  | vacant (hgroup : r.group? (J.room op g) = none) (hnone : ∀ k ∈ g, key k i ∉ launched)
  | gathering {G : RendezvousGroup (List Bytes)} (hgroup : r.group? (J.room op g) = some G)
      (hcell : G.cell = cell) (hfills : J.Fills i op g launched G)
      (hsome : ∃ k ∈ g, key k i ∈ launched) (hlt : G.arrived < g.length)
      (hsize : cell < r.cells.size) (hresult : r.result? cell = none)
  /-- The promise of the group has been taken out of it, and was kept or is going to be. -/
  | complete (hgroup : r.group? (J.room op g) = none) (hall : ∀ k ∈ g, key k i ∈ launched)
      (hsize : cell < r.cells.size)
      (hresult : r.result? cell = some (.ok (J.contributions i op g)) ∨
        r.result? cell = none ∧ ∃ values t, .resolve values t ∈ works ∧
          t.exchange.kind = op.exchange.kind ∧ t.cell = cell)

section Phase

variable {cell : Nat} {r r' : Rendezvous (List Bytes) Participant} {works works' : Set Work}

/-- What happens elsewhere does not matter. -/
theorem Phase.elsewhere (hp : J.Phase i op g cell r launched works)
    (hgroup : r'.group? (J.room op g) = r.group? (J.room op g))
    (hsize : r.cells.size ≤ r'.cells.size) (hresult : r'.result? cell = r.result? cell)
    (hl : ∀ k ∈ g, key k i ∈ launched' ↔ key k i ∈ launched)
    (hworks : ∀ values t, .resolve values t ∈ works → t.exchange.kind = op.exchange.kind →
      t.cell = cell → .resolve values t ∈ works') :
    J.Phase i op g cell r' launched' works' := by
  cases hp with
  | vacant hnone hl' => exact .vacant (hgroup.trans hnone) fun k hk hcame => hl' k hk ((hl k hk).1 hcame)
  | gathering hG hcell hfills hsome hlt hin hpending =>
    obtain ⟨k, hk, hcame⟩ := hsome
    exact .gathering (hgroup.trans hG) hcell (hfills.congr hl) ⟨k, hk, (hl k hk).2 hcame⟩ hlt
      (Nat.lt_of_lt_of_le hin hsize) (hresult.trans hpending)
  | complete hnone hall hin hr =>
    refine .complete (hgroup.trans hnone) (fun k hk => (hl k hk).2 (hall k hk))
      (Nat.lt_of_lt_of_le hin hsize) ?_
    rw [hresult]
    exact hr.imp_right fun ⟨hpending, values, t, ht, hkind, hcell⟩ =>
      ⟨hpending, values, t, hworks values t ht hkind hcell, hkind, hcell⟩

theorem Phase.lt_size (hp : J.Phase i op g cell r launched works) (hk : k ∈ g)
    (hcame : key k i ∈ launched) : cell < r.cells.size := by
  cases hp with
  | vacant _ hnone => exact (hnone k hk hcame).elim
  | gathering _ _ _ _ _ hin | complete _ _ hin => exact hin

/-- The group that a member finds who has not come. -/
theorem Phase.groupFor (hp : J.Phase i op g cell r launched works) (hk : k ∈ g)
    (hnew : key k i ∉ launched) :
    J.Fills i op g launched (r.groupFor (J.room op g)).2 ∧
      (r.groupFor (J.room op g)).2.cell < (r.groupFor (J.room op g)).1.cells.size ∧
      r.result? (r.groupFor (J.room op g)).2.cell = none ∧
      ((∃ k ∈ g, key k i ∈ launched) ∧ (r.groupFor (J.room op g)).2.cell = cell ∨
        (∀ k ∈ g, key k i ∉ launched) ∧ (r.groupFor (J.room op g)).2.cell = r.cells.size) := by
  cases hp with
  | vacant hgroup hnone =>
    rw [Rendezvous.groupFor_of_none hgroup]
    have hsize : (J.room op g).size = g.length := List.length_map _
    refine ⟨hsize ▸ fills_empty hnone _, ?_, ?_, .inr ⟨hnone, rfl⟩⟩
    · simp [RendezvousGroup.empty]
    · simp [RendezvousGroup.empty, Rendezvous.result?, Cells.result?]
  | gathering hgroup hcell hfills hsome hlt hin hpending =>
    rw [Rendezvous.groupFor_of_some hgroup]
    exact ⟨hfills, hcell ▸ hin, hcell ▸ hpending, .inl ⟨hsome, hcell⟩⟩
  | complete hgroup hall => exact (hnew (hall k hk)).elim

/-- One more member comes. Its group waits on, or the promise is taken out of it. -/
theorem Phase.enter (hp : J.Phase i op g cell r launched works) (hg : g.Nodup) (hk : k ∈ g)
    (hnew : key k i ∉ launched) : ∃ r' d entrance,
      r.enter (J.room op g) (g.idxOf k) (J.brought op (J.lockstep i k) k) = (r', entrance) ∧
      r.ChangedAt r' (J.room op g) ∧ d = (r.groupFor (J.room op g)).2.cell ∧
      ((∃ isNew, entrance = .waiting d isNew ∧
          ∀ works', J.Phase i op g d r' (insert (key k i) launched) works') ∨
        (entrance = .filled d (some (J.contributions i op g)) ∧
          (∀ k' ∈ g, key k' i ∈ insert (key k i) launched) ∧
          ∀ works' values t, .resolve values t ∈ works' → t.exchange.kind = op.exchange.kind →
            t.cell = d → J.Phase i op g d r' (insert (key k i) launched) works')) := by
  obtain ⟨hfills, hsize, hpending, -⟩ := hp.groupFor hk hnew
  have hroom : (J.room op g).size = g.length := List.length_map _
  have hfor := r.changedAt_groupFor (J.room op g)
  have henter := r.enter_eq (J.room op g) (hroom ▸ List.idxOf_lt_length_iff.2 hk)
    (by rw [hfills.free k hk hnew]; rfl) (J.brought op (J.lockstep i k) k)
  obtain ⟨r₁, hr₁⟩ : ∃ r₁, (r.groupFor (J.room op g)).1 = r₁ := ⟨_, rfl⟩
  obtain ⟨G, hG⟩ : ∃ G, (r.groupFor (J.room op g)).2 = G := ⟨_, rfl⟩
  rw [hr₁, hG] at henter
  rw [hG] at hfills hpending
  rw [hr₁] at hfor
  rw [hr₁, hG] at hsize
  have hfull := hfills.add hk hnew
  have hchanged := hfor.trans (r₁.changedAt_leave (J.room op g)
    (G.add (g.idxOf k) (J.brought op (J.lockstep i k) k)) (r.group? (J.room op g)).isNone)
  have hpending' : r₁.result? G.cell = none := (hfor.result _).trans hpending
  by_cases hlt : (G.add (g.idxOf k) (J.brought op (J.lockstep i k) k)).arrived < (J.room op g).size
  · rw [Rendezvous.leave, if_pos hlt] at henter hchanged
    exact ⟨_, G.cell, _, henter, hchanged, hG ▸ rfl, .inl ⟨_, rfl, fun works' =>
      .gathering (Rendezvous.group?_store_self _ _ _) rfl hfull ⟨k, hk, .inl rfl⟩ (hroom ▸ hlt) hsize
        hpending'⟩⟩
  · have hall := hfull.all (hroom ▸ Nat.le_of_not_lt hlt)
    rw [Rendezvous.leave, if_neg hlt, if_pos hfull.promised, hfull.drained hg hall] at henter hchanged
    exact ⟨_, G.cell, _, henter, hchanged, hG ▸ rfl, .inr ⟨rfl, hall,
      fun works' values t ht hkind hcell =>
        .complete (Rendezvous.group?_forget_self _ _) hall hsize
          (.inr ⟨hpending', values, t, ht, hkind, hcell⟩)⟩⟩

end Phase

theorem Meets.came_insert_iff (hm : J.Meets i op g) (hJ : J.IsWellFormed) (hi : J.Joins i info op)
    (hmem : h ∈ g) {j : Nat} (hm' : J.Meets j op' g') (hne : (j, g') ≠ (i, g)) (hk : k ∈ g') :
    key k j ∈ insert (key h i) launched ↔ key k j ∈ launched := by
  refine ⟨fun hcame => hcame.resolve_left fun heq => hne ?_, .inr⟩
  obtain ⟨rfl, rfl⟩ := key_inj.1 heq
  obtain ⟨⟨info', hj⟩, -⟩ := id hm'
  obtain rfl := hi.unique hj
  rw [← (hm'.isTeam hJ).team k hk, ← (hm.isTeam hJ).team k hmem]

/-- A participant has joined the exchange of operation `i` on host `h`, and has the cell of its
team. -/
structure Engages (J : Job) (cell : Nat × List Nat → Nat) (launched : Set CallKey) (i : Nat)
    (op : Collective) (h : Nat) (w : Participant) : Prop where
  joins : ∃ info, J.Joins i info op
  lt : h < J.replicas
  eq : w = ⟨key h i, J.exchangeOf op h, op.seat J.replicas h, cell (i, op.team J.replicas h),
    op.destination⟩
  launched : key h i ∈ launched

/-- What goes on in the rooms of a job, where `cell` tells the cell of a team for an operation. -/
structure Exchanges (J : Job) (cell : Nat × List Nat → Nat) (t : Transport Participant)
    (launched : Set CallKey) (works : Set Work) : Prop where
  phase : ∀ i op g, J.Meets i op g →
    J.Phase i op g (cell (i, g)) (t.get op.exchange.kind) launched works
  homed : ∀ k room G, (t.get k).group? room = some G →
    ∃ i op g, J.Meets i op g ∧ op.exchange.kind = k ∧ J.room op g = room
  apart : ∀ i op g j op' g', J.Meets i op g → J.Meets j op' g' →
    op.exchange.kind = op'.exchange.kind → (∃ k ∈ g, key k i ∈ launched) →
    (∃ k ∈ g', key k j ∈ launched) → cell (i, g) = cell (j, g') → i = j ∧ g = g'
  engaged : ∀ work ∈ works, ∀ w ∈ work.participants, ∃ i op h, J.Engages cell launched i op h w
  waits : ∀ k d w, w ∈ (t.get k).cells.waiters d →
    (∃ i op h, J.Engages cell launched i op h w) ∧ w.exchange.kind = k ∧ w.cell = d ∧
      (t.get k).result? d = none
  handed : ∀ ws, .handOut ws ∈ works → ∀ w ∈ ws, (t.get w.exchange.kind).result? w.cell ≠ none
  resolved : ∀ values w, .resolve values w ∈ works → ∃ i op h, J.Engages cell launched i op h w ∧
    values = J.contributions i op (op.team J.replicas h) ∧
      ∀ k ∈ op.team J.replicas h, key k i ∈ launched

variable {cell : Nat × List Nat → Nat} {t : Transport Participant} {works works' : Set Work}
  {w : Participant} {values : List (List Bytes)}

theorem Engages.kind (hw : J.Engages cell launched i op h w) :
    w.exchange.kind = op.exchange.kind := by
  rw [hw.eq]
  exact kind_exchangeOf op h

theorem Engages.meets (hw : J.Engages cell launched i op h w) :
    J.Meets i op (op.team J.replicas h) :=
  ⟨hw.joins, h, hw.lt, rfl⟩

theorem Engages.mem_team (hw : J.Engages cell launched i op h w) (hJ : J.IsWellFormed) :
    h ∈ op.team J.replicas h := by
  obtain ⟨info, hi⟩ := hw.joins
  exact (Collective.Splits.isTeam (hJ.groups i info op hi) hw.lt).2

theorem Engages.mono {cell' : Nat × List Nat → Nat} (hw : J.Engages cell launched i op h w)
    (hl : launched ⊆ launched')
    (hcell : cell' (i, op.team J.replicas h) = cell (i, op.team J.replicas h)) :
    J.Engages cell' launched' i op h w :=
  ⟨hw.joins, hw.lt, by rw [hcell]; exact hw.eq, hl hw.launched⟩

namespace Exchanges

theorem phase_of_engages (hx : J.Exchanges cell t launched works)
    (hw : J.Engages cell launched i op h w) :
    J.Phase i op (op.team J.replicas h) w.cell (t.get w.exchange.kind) launched works := by
  rw [hw.kind, hw.eq]
  exact hx.phase i op _ hw.meets

theorem forget (hx : J.Exchanges cell t launched works) (hsub : works' ⊆ works)
    (hresolve : ∀ values w, .resolve values w ∈ works → .resolve values w ∈ works') :
    J.Exchanges cell t launched works' where
  phase i op g hm := (hx.phase i op g hm).elsewhere rfl (Nat.le_refl _) rfl (fun _ _ => Iff.rfl)
    fun values w hw _ _ => hresolve values w hw
  homed := hx.homed
  apart := hx.apart
  engaged work hwork := hx.engaged work (hsub hwork)
  waits := hx.waits
  handed ws hws := hx.handed ws (hsub hws)
  resolved values w hw := hx.resolved values w (hsub hw)

/-- An operation is launched that is no collective. -/
theorem launch_other (hx : J.Exchanges cell t launched works) (hi : ∀ info op, ¬ J.Joins i info op) :
    J.Exchanges cell t (insert (key h i) launched) works where
  phase j op g hm := by
    refine (hx.phase j op g hm).elsewhere rfl (Nat.le_refl _) rfl (fun k _ => ?_)
      fun _ _ hw _ _ => hw
    obtain ⟨⟨info, hj⟩, -⟩ := hm
    have hne : j ≠ i := fun heq => hi info op (heq ▸ hj)
    simp [hne]
  homed := hx.homed
  apart j op g j' op' g' hm hm' hkind hsome hsome' := by
    have hold : ∀ {j op g}, J.Meets j op g → (∃ k ∈ g, key k j ∈ insert (key h i) launched) →
        ∃ k ∈ g, key k j ∈ launched := fun {j op g} hm ⟨k, hk, hcame⟩ => by
      obtain ⟨⟨info, hj⟩, -⟩ := hm
      have hne : j ≠ i := fun heq => hi info op (heq ▸ hj)
      exact ⟨k, hk, by simpa [hne] using hcame⟩
    exact hx.apart j op g j' op' g' hm hm' hkind (hold hm hsome) (hold hm' hsome')
  engaged work hwork w hw := by
    obtain ⟨j, op, k, he⟩ := hx.engaged work hwork w hw
    exact ⟨j, op, k, he.mono (Set.subset_insert _ _) rfl⟩
  waits k d w hw := by
    obtain ⟨⟨j, op, k', he⟩, hrest⟩ := hx.waits k d w hw
    exact ⟨⟨j, op, k', he.mono (Set.subset_insert _ _) rfl⟩, hrest⟩
  handed := hx.handed
  resolved values w hw := by
    obtain ⟨j, op, k, he, hvalues, hall⟩ := hx.resolved values w hw
    exact ⟨j, op, k, he.mono (Set.subset_insert _ _) rfl, hvalues,
      fun k' hk' => Set.mem_insert_of_mem _ (hall k' hk')⟩

theorem update_of_came {d : Nat} {j : Nat} (hd : (∃ k ∈ g, key k i ∈ launched) → d = cell (i, g))
    (hsome : ∃ k ∈ g', key k j ∈ launched) :
    Function.update cell (i, g) d (j, g') = cell (j, g') := by
  by_cases heq : (j, g') = (i, g)
  · obtain ⟨rfl, rfl⟩ := Prod.mk.inj heq
    rw [Function.update_self, hd hsome]
  · rw [Function.update_of_ne heq]

/-- The cells of the teams stay apart when a member comes, and its team has the cell it had or one
that nobody has. -/
theorem apart_join (hx : J.Exchanges cell t launched works) (hJ : J.IsWellFormed)
    (hi : J.Joins i info op) (hm : J.Meets i op g) (hmem : h ∈ g) {d : Nat}
    (hcell : (∃ k ∈ g, key k i ∈ launched) ∧ d = cell (i, g) ∨
      (∀ k ∈ g, key k i ∉ launched) ∧ d = (t.get op.exchange.kind).cells.size)
    {i₁ i₂ : Nat} {op₁ op₂ : Collective} {g₁ g₂ : List Nat}
    (hm₁ : J.Meets i₁ op₁ g₁) (hm₂ : J.Meets i₂ op₂ g₂) (hkind : op₁.exchange.kind = op₂.exchange.kind)
    (hsome₁ : ∃ k ∈ g₁, key k i₁ ∈ insert (key h i) launched)
    (hsome₂ : ∃ k ∈ g₂, key k i₂ ∈ insert (key h i) launched)
    (heq : Function.update cell (i, g) d (i₁, g₁) = Function.update cell (i, g) d (i₂, g₂)) :
    i₁ = i₂ ∧ g₁ = g₂ := by
  have hkeep : (∃ k ∈ g, key k i ∈ launched) → d = cell (i, g) := fun hsome =>
    (hcell.resolve_right fun hnone => hsome.elim fun k hk => hnone.1 k hk.1 hk.2).2
  have hold : ∀ {j op' g'}, J.Meets j op' g' → (j, g') ≠ (i, g) →
      (∃ k ∈ g', key k j ∈ insert (key h i) launched) → ∃ k ∈ g', key k j ∈ launched :=
    fun hm' hne ⟨k, hk, hcame⟩ => ⟨k, hk, (hm.came_insert_iff hJ hi hmem hm' hne hk).1 hcame⟩
  have hself : ∀ {j op' g'}, J.Meets j op' g' → (j, g') = (i, g) → op = op' := fun hm' hpair => by
    obtain ⟨rfl, rfl⟩ := Prod.mk.inj hpair
    obtain ⟨⟨info', hj⟩, -⟩ := hm'
    exact hi.unique hj
  -- whoever else has a cell that is now this team's is this team
  have hfirst : ∀ {j op' g'}, J.Meets j op' g' → op.exchange.kind = op'.exchange.kind →
      (∃ k ∈ g', key k j ∈ launched) → d = cell (j, g') → (i, g) = (j, g') :=
    fun {j op' g'} hm' hkind hsome heq => by
      rcases hcell with ⟨hcame, hold⟩ | ⟨-, hfresh⟩
      · obtain ⟨rfl, rfl⟩ := hx.apart i op g j op' g' hm hm' hkind hcame hsome (hold ▸ heq)
        rfl
      · obtain ⟨k, hk, hcame⟩ := hsome
        have := (hx.phase j op' g' hm').lt_size hk hcame
        rw [← hkind] at this
        omega
  by_cases h₁ : (i₁, g₁) = (i, g) <;> by_cases h₂ : (i₂, g₂) = (i, g)
  · exact Prod.mk.inj (h₁.trans h₂.symm)
  · have hsome := hold hm₂ h₂ hsome₂
    rw [h₁, Function.update_self, update_of_came hkeep hsome] at heq
    exact Prod.mk.inj (h₁.trans (hfirst hm₂ (hself hm₁ h₁ ▸ hkind) hsome heq))
  · have hsome := hold hm₁ h₁ hsome₁
    rw [h₂, Function.update_self, update_of_came hkeep hsome] at heq
    exact Prod.mk.inj
      ((hfirst hm₁ (hself hm₂ h₂ ▸ hkind.symm) hsome heq.symm).symm.trans h₂.symm)
  · have hs₁ := hold hm₁ h₁ hsome₁
    have hs₂ := hold hm₂ h₂ hsome₂
    rw [update_of_came hkeep hs₁, update_of_came hkeep hs₂] at heq
    exact hx.apart i₁ op₁ g₁ i₂ op₂ g₂ hm₁ hm₂ hkind hs₁ hs₂ heq

/-- A member of a team joins its exchange. -/
theorem join (hx : J.Exchanges cell t launched works) (hJ : J.IsWellFormed) (hi : J.Joins i info op)
    (hh : h < J.replicas) (hnew : key h i ∉ launched) (hg : g = op.team J.replicas h)
    {r' : Rendezvous (List Bytes) Participant} {d : Nat} {added : Work}
    (hd : d = ((t.get op.exchange.kind).groupFor (J.room op g)).2.cell)
    (hchanged : (t.get op.exchange.kind).ChangedAt r' (J.room op g))
    (hadded : added.participants =
      [⟨key h i, J.exchangeOf op h, op.seat J.replicas h, d, op.destination⟩])
    (hhanded : ∀ ws, added ≠ .handOut ws)
    (hresolved : ∀ values w, added = .resolve values w →
      values = J.contributions i op g ∧ ∀ k ∈ g, key k i ∈ insert (key h i) launched)
    (hphase : J.Phase i op g d r' (insert (key h i) launched) (insert added works)) :
    J.Exchanges (Function.update cell (i, g) d) (t.set op.exchange.kind r')
      (insert (key h i) launched) (insert added works) := by
  have hm : J.Meets i op g := ⟨⟨info, hi⟩, h, hh, hg⟩
  have hmem : h ∈ g := hg ▸ (Collective.Splits.isTeam (hJ.groups i info op hi) hh).2
  obtain ⟨-, -, -, hcell⟩ := (hx.phase i op g hm).groupFor hmem hnew
  rw [← hd] at hcell
  have hkeep : (∃ k ∈ g, key k i ∈ launched) → d = cell (i, g) := fun hsome =>
    (hcell.resolve_right fun hnone => hsome.elim fun k hk => hnone.1 k hk.1 hk.2).2
  have hmono : ∀ {j op' k w}, J.Engages cell launched j op' k w →
      J.Engages (Function.update cell (i, g) d) (insert (key h i) launched) j op' k w :=
    fun hw => hw.mono (Set.subset_insert _ _)
      (update_of_came hkeep ⟨_, hw.mem_team hJ, hw.launched⟩)
  have hset := t.changedAt_set hchanged
  refine ⟨fun j op' g' hm' => ?_, fun k room G hG => ?_,
    fun _ _ _ _ _ _ hm₁ hm₂ => hx.apart_join hJ hi hm hmem hcell hm₁ hm₂,
    fun work hwork w hw => ?_, fun k c w hw => ?_, fun ws hws w hw => ?_, fun values w hw => ?_⟩
  · by_cases heq : (j, g') = (i, g)
    · obtain ⟨rfl, rfl⟩ := Prod.mk.inj heq
      obtain ⟨⟨info', hj⟩, -⟩ := id hm'
      obtain rfl := hi.unique hj
      rw [Function.update_self, Transport.get_set, if_pos rfl]
      exact hphase
    · rw [Function.update_of_ne heq]
      refine (hx.phase j op' g' hm').elsewhere (hset.group fun hk hroom => heq ?_) (hset.size _)
        (hset.result _ _) (fun k hk => hm.came_insert_iff hJ hi hmem hm' heq hk)
        fun _ _ hw _ _ => .inr hw
      obtain ⟨rfl, rfl⟩ := hm.room_inj hJ hm' hk hroom
      rfl
  · by_cases hroom : op.exchange.kind = k ∧ J.room op g = room
    · exact ⟨i, op, g, hm, hroom.1, hroom.2⟩
    · rw [hset.group fun hk hr => hroom ⟨hk, hr⟩] at hG
      exact hx.homed k room G hG
  · rcases hwork with rfl | hwork
    · rw [hadded, List.mem_singleton] at hw
      refine ⟨i, op, h, ⟨info, hi⟩, hh, ?_, .inl rfl⟩
      rw [hw, ← hg, Function.update_self]
    · obtain ⟨j, op', k, he⟩ := hx.engaged work hwork w hw
      exact ⟨j, op', k, hmono he⟩
  · rw [hset.waiters] at hw
    obtain ⟨⟨j, op', k', he⟩, hk, hc, hpending⟩ := hx.waits k c w hw
    exact ⟨⟨j, op', k', hmono he⟩, hk, hc, (hset.result k c).trans hpending⟩
  · rcases hws with hws | hws
    · exact (hhanded ws hws.symm).elim
    · rw [hset.result]
      exact hx.handed ws hws w hw
  · rcases hw with rfl | hw
    · obtain ⟨hvalues, hall⟩ := hresolved values w rfl
      obtain rfl : w = _ := List.singleton_inj.1 hadded
      refine ⟨i, op, h, ⟨⟨info, hi⟩, hh, ?_, .inl rfl⟩, hg ▸ hvalues, hg ▸ hall⟩
      rw [← hg, Function.update_self]
    · obtain ⟨j, op', k, he, hvalues, hall⟩ := hx.resolved values w hw
      exact ⟨j, op', k, hmono he, hvalues, fun k' hk' => .inr (hall k' hk')⟩

/-- A host that is about to launch a collective joins the exchange of its team, unless it is turned
away. -/
theorem launch (hx : J.Exchanges cell t launched works) (hJ : J.IsWellFormed) (hi : J.Joins i info op)
    (hh : h < J.replicas) (hnew : key h i ∉ launched) {entry : Platform.Entry}
    (hentry : entry = ⟨J.exchangeOf op h, J.room op (op.team J.replicas h), op.seat J.replicas h,
      J.brought op (J.lockstep i h) h⟩) :
    (∃ e, (t.enter entry.exchange entry.key entry.rank entry.blocks).2 = .rejected e) ∨
      ∃ cell' added, Platform.joined (key h i) entry op.destination
          (t.enter entry.exchange entry.key entry.rank entry.blocks).2 = [.work added] ∧
        J.Exchanges cell' (t.enter entry.exchange entry.key entry.rank entry.blocks).1
          (insert (key h i) launched) (insert added works) := by
  subst hentry
  have hm : J.Meets i op (op.team J.replicas h) := ⟨⟨info, hi⟩, h, hh, rfl⟩
  have hmem := (Collective.Splits.isTeam (hJ.groups i info op hi) hh).2
  obtain ⟨r', d, entrance, henter, hchanged, hd, hcases⟩ :=
    (hx.phase i op _ hm).enter (hm.isTeam hJ).nodup hmem hnew
  unfold Transport.enter
  split
  · exact .inl ⟨_, rfl⟩
  · right
    simp only [kind_exchangeOf, Collective.seat, henter]
    rcases hcases with ⟨isNew, rfl, hphase⟩ | ⟨rfl, hall, hphase⟩
    · exact ⟨_, .attend ⟨key h i, J.exchangeOf op h, op.seat J.replicas h, d, op.destination⟩, rfl,
        hx.join hJ hi hh hnew rfl hd hchanged rfl (by simp) (by simp) (hphase _)⟩
    · refine ⟨_, .resolve (J.contributions i op (op.team J.replicas h))
        ⟨key h i, J.exchangeOf op h, op.seat J.replicas h, d, op.destination⟩, rfl,
        hx.join hJ hi hh hnew rfl hd hchanged rfl (by simp) (fun values w heq => ?_)
          (hphase _ _ _ (.inl rfl) (kind_exchangeOf op h) rfl)⟩
      cases heq
      exact ⟨rfl, hall⟩

/-- A participant begins to wait. -/
theorem register (hx : J.Exchanges cell t launched (insert (.attend w) works))
    (hpending : (t.get w.exchange.kind).result? w.cell = none) :
    J.Exchanges cell (t.register w.exchange.kind w.cell w) launched works := by
  have hkeeps := t.keepsGroups_register w.exchange.kind w.cell w
  have hresult := t.result?_register w.exchange.kind w.cell w
  refine ⟨fun i op g hm => ?_, fun k room G hG => hx.homed k room G (hkeeps.group k room ▸ hG),
    hx.apart, fun work hwork => hx.engaged work (.inr hwork), fun k d v hv => ?_,
    fun ws hws v hv => hresult _ _ ▸ hx.handed ws (.inr hws) v hv,
    fun values v hv => hx.resolved values v (.inr hv)⟩
  · exact (hx.phase i op g hm).elsewhere (hkeeps.group _ _) (hkeeps.size _).ge (hresult _ _)
      (fun _ _ => Iff.rfl) fun values v hv _ _ => hv.resolve_left (by simp)
  · rw [hresult]
    rw [Transport.register, Transport.get_set] at hv
    split at hv
    · next hk =>
      subst hk
      rcases Cells.mem_waiters_register _ hv with hold | ⟨rfl, rfl⟩
      · exact hx.waits _ d v hold
      · exact ⟨hx.engaged _ (.inl rfl) v (List.mem_singleton_self v), rfl, rfl, hpending⟩
    · exact hx.waits k d v hv

/-- A promise that is due is kept. -/
theorem phase_settle (hx : J.Exchanges cell t launched (insert (.resolve values w) works))
    (hJ : J.IsWellFormed) (hm : J.Meets i op g) :
    J.Phase i op g (cell (i, g))
      ((t.settle w.exchange.kind w.cell values).1.get op.exchange.kind) launched works := by
  obtain ⟨j, op', h, he, hvalues, hall⟩ := hx.resolved values w (.inl rfl)
  have hkeeps := t.keepsGroups_settle w.exchange.kind w.cell values
  have hp := hx.phase i op g hm
  by_cases hpair : (w.exchange.kind, w.cell) = (op.exchange.kind, cell (i, g))
  · obtain ⟨hkind, hcell⟩ := Prod.mk.inj hpair
    have hkind' : op.exchange.kind = op'.exchange.kind := hkind.symm.trans he.kind
    have hcell' : cell (i, g) = cell (j, op'.team J.replicas h) :=
      hcell.symm.trans (by rw [he.eq])
    -- it is the promise of this team, if anybody of it has come
    have hteam : (∃ k ∈ g, key k i ∈ launched) → i = j ∧ g = op'.team J.replicas h := fun hsome =>
      hx.apart i op g j op' _ hm he.meets hkind' hsome ⟨h, he.mem_team hJ, he.launched⟩ hcell'
    cases hp with
    | vacant hgroup hnone => exact .vacant ((hkeeps.group _ _).trans hgroup) hnone
    | gathering hgroup hG hfills hsome hlt =>
      obtain ⟨rfl, rfl⟩ := hteam hsome
      obtain ⟨k, hk, hnew⟩ := hfills.exists_missing (hm.isTeam hJ).nodup hlt
      exact (hnew (hall k hk)).elim
    | complete hgroup hcame hin hr =>
      obtain ⟨⟨info, hi⟩, k, hk, rfl⟩ := id hm
      have hmem := (Collective.Splits.isTeam (hJ.groups i info op hi) hk).2
      obtain ⟨rfl, hg⟩ := hteam ⟨k, hmem, hcame k hmem⟩
      obtain ⟨info', hj⟩ := he.joins
      obtain rfl := hi.unique hj
      refine .complete ((hkeeps.group _ _).trans hgroup) hcame (hin.trans_eq (hkeeps.size _).symm)
        (.inl ?_)
      rcases hr with hr | ⟨hpending, -⟩
      · rw [t.result?_settle_of_ne_none _ _ _ (by simp [hr]), hr]
      · rw [← hkind, ← hcell, t.result?_settle_self _ _ (hkind ▸ hcell ▸ hin)
          (hkind ▸ hcell ▸ hpending), hvalues, hg]
  · refine hp.elsewhere (hkeeps.group _ _) (hkeeps.size _).ge (t.result?_settle_of_ne _ _ _ hpair)
      (fun _ _ => Iff.rfl) fun values' w' hw' hkind hcell => hw'.resolve_left fun heq => ?_
    cases heq
    exact hpair (by rw [hkind, hcell])

/-- A promise that is due is kept, and the results are about to be handed out to those who wait and
to the participant who has kept it. -/
theorem settle (hx : J.Exchanges cell t launched (insert (.resolve values w) works))
    (hJ : J.IsWellFormed) :
    J.Exchanges cell (t.settle w.exchange.kind w.cell values).1 launched
      (insert (.handOut ((t.settle w.exchange.kind w.cell values).2 ++ [w])) works) := by
  obtain ⟨i, op, h, he, hvalues, hall⟩ := hx.resolved values w (.inl rfl)
  have hkeeps := t.keepsGroups_settle w.exchange.kind w.cell values
  have hin := (hx.phase_of_engages he).lt_size (he.mem_team hJ) he.launched
  have hsettled : ((t.settle w.exchange.kind w.cell values).1.get w.exchange.kind).result? w.cell ≠
      none := by
    by_cases hpending : (t.get w.exchange.kind).result? w.cell = none
    · simp [t.result?_settle_self _ _ hin hpending]
    · rwa [t.result?_settle_of_ne_none _ _ _ hpending]
  have hwoken : ∀ v ∈ (t.settle w.exchange.kind w.cell values).2 ++ [w],
      (∃ i op h, J.Engages cell launched i op h v) ∧ v.exchange.kind = w.exchange.kind ∧
        v.cell = w.cell := fun v hv => by
    rcases List.mem_append.1 hv with hv | hv
    · obtain ⟨hengages, hkind, hcell, -⟩ := hx.waits _ _ v (Cells.mem_waiters_of_mem_settle _ hv)
      exact ⟨hengages, hkind, hcell⟩
    · obtain rfl := List.mem_singleton.1 hv
      exact ⟨⟨i, op, h, he⟩, rfl, rfl⟩
  refine ⟨fun i op g hm => ?_, fun k room G hG => hx.homed k room G (hkeeps.group k room ▸ hG),
    hx.apart, fun work hwork v hv => ?_, fun k d v hv => ?_, fun ws hws v hv => ?_,
    fun values' v hv => ?_⟩
  · exact (hx.phase_settle hJ hm).elsewhere rfl (Nat.le_refl _) rfl (fun _ _ => Iff.rfl)
      fun _ _ hw _ _ => .inr hw
  · rcases hwork with rfl | hwork
    · exact (hwoken v hv).1
    · exact hx.engaged work (.inr hwork) v hv
  · have hwaits : v ∈ (t.get k).cells.waiters d ∧ (w.exchange.kind, w.cell) ≠ (k, d) := by
      rw [Transport.settle, Transport.get_set] at hv
      split at hv
      · next hk =>
        subst hk
        obtain ⟨hmem, hsame⟩ := Cells.mem_waiters_settle _ hv
        refine ⟨hmem, fun hpair => ?_⟩
        obtain ⟨-, rfl⟩ := Prod.mk.inj hpair
        rcases hsame rfl with hne | hge
        · exact hne (hx.waits _ _ v hmem).2.2.2
        · exact absurd hin (Nat.not_lt_of_le hge)
      · next hk => exact ⟨hv, fun hpair => hk (Prod.mk.inj hpair).1⟩
    rw [t.result?_settle_of_ne _ _ _ hwaits.2]
    exact hx.waits k d v hwaits.1
  · rcases hws with heq | hws
    · obtain rfl := Work.handOut.inj heq
      obtain ⟨-, hkind, hcell⟩ := hwoken v hv
      rwa [hkind, hcell]
    · have hne := hx.handed ws (.inr hws) v hv
      rwa [t.result?_settle_of_ne_none _ _ _ hne]
  · exact hx.resolved values' v (.inr (hv.resolve_left (by simp)))

/-- Something that was to be done, and is no promise, gives way to handing out results that are
there. -/
theorem handing {ws : List Participant} {old : Work}
    (hx : J.Exchanges cell t launched (insert old works)) (hold : ∀ values w, old ≠ .resolve values w)
    (hfrom : ∀ w ∈ ws, w ∈ old.participants)
    (hready : ∀ w ∈ ws, (t.get w.exchange.kind).result? w.cell ≠ none) :
    J.Exchanges cell t launched (insert (.handOut ws) works) := by
  refine ⟨fun i op g hm => ?_, hx.homed, hx.apart, fun work hwork v hv => ?_, hx.waits,
    fun ws' hws v hv => ?_, fun values v hv => ?_⟩
  · exact (hx.phase i op g hm).elsewhere rfl (Nat.le_refl _) rfl (fun _ _ => Iff.rfl)
      fun values v hv _ _ => .inr (hv.resolve_left (hold values v).symm)
  · rcases hwork with rfl | hwork
    · exact hx.engaged _ (.inl rfl) v (hfrom v hv)
    · exact hx.engaged work (.inr hwork) v hv
  · rcases hws with heq | hws
    · obtain rfl := Work.handOut.inj heq
      exact hready v hv
    · exact hx.handed ws' (.inr hws) v hv
  · exact hx.resolved values v (.inr (hv.resolve_left (by simp)))

theorem arrive (hx : J.Exchanges cell t launched (insert (.attend w) works))
    (hresult : (t.get w.exchange.kind).result? w.cell ≠ none) :
    J.Exchanges cell t launched (insert (.handOut [w]) works) :=
  hx.handing (by simp) (fun _ hv => hv) fun v hv => by
    obtain rfl := List.mem_singleton.1 hv
    exact hresult

theorem handOut {ws : List Participant}
    (hx : J.Exchanges cell t launched (insert (.handOut (w :: ws)) works)) :
    J.Exchanges cell t launched (insert (.handOut ws) works) :=
  hx.handing (by simp) (fun _ hv => List.mem_cons_of_mem _ hv) fun v hv =>
    hx.handed _ (.inl rfl) v (List.mem_cons_of_mem _ hv)

theorem result_of_engages (hx : J.Exchanges cell t launched works) (he : J.Engages cell launched i op h w)
    (hJ : J.IsWellFormed) (hresult : (t.get w.exchange.kind).result? w.cell ≠ none) :
    (t.get w.exchange.kind).result? w.cell =
      some (.ok (J.contributions i op (op.team J.replicas h))) := by
  cases hx.phase_of_engages he with
  | vacant _ hnone => exact (hnone h (he.mem_team hJ) he.launched).elim
  | gathering _ _ _ _ _ _ hpending => exact (hresult hpending).elim
  | complete _ _ _ hr => exact hr.resolve_right fun hpending => hresult hpending.1

end Exchanges

end Job

end OpFlow
