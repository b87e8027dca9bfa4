import OpFlow.Proofs.Collective.Party

/-!
How a party goes. Nobody has come yet; or some have, and wait for the others; or all have come, and the
contributions are there or about to be. Every member that has come is owed the end of its call by one
thing, which is asked for or waits for the cell of the party. So when all have come and nothing is left
to do, every call has ended once, with what the exchange makes of all contributions.
-/
namespace OpFlow

open Machine (CallKey Effect Backend)

namespace Party

variable (P : Party)

def seat (cell r : Nat) : Participant := ⟨P.call r, P.dealt r, P.rank r, cell, P.destination r⟩

def outcome (r : Nat) : Outcome :=
  match (P.final r).2 with
  | .ok () => .ok ()
  | .error (.error e) => .error e
  | .error (.panic text) => .error (.panicked text)

structure Gathers (launched : List Nat) (G : RendezvousGroup (List Bytes)) : Prop where
  promised : G.promised = true
  arrived : G.arrived = launched.length
  slots : G.slots = P.group.map fun r => if r ∈ launched then some (P.brought r) else none

/-- What may be asked for in a party that meets for this cell. -/
inductive Allows (cell : Nat) (s : Bout) : Effect Work → Prop
  | settle {r : Nat} (hr : r ∈ P.group) : Allows cell s (.settle (P.call r) (P.outcome r))
  | attend {r : Nat} (hr : r ∈ P.group) : Allows cell s (.work (.attend (P.seat cell r)))
  | resolve {r : Nat} (hr : r ∈ P.group) (hall : P.group ⊆ s.launched) :
      Allows cell s (.work (.resolve P.contributions (P.seat cell r)))
  | handOut {members : List Nat} (hmembers : members ⊆ P.group)
      (hready : members ≠ [] →
        (P.desk s.platform).result? cell = some (.ok P.contributions)) :
      Allows cell s (.work (.handOut (members.map (P.seat cell))))

/-- How far the members of a party have come. -/
inductive Phase (cell : Nat) (s : Bout) : Prop
  | vacant (hlaunched : s.launched = []) (hasked : s.asked = [])
      (hgroup : (P.desk s.platform).group? P.key = none)
      (hcell : cell = (P.desk s.platform).cells.size)
  | gathering {G : RendezvousGroup (List Bytes)}
      (hgroup : (P.desk s.platform).group? P.key = some G) (hcell : G.cell = cell)
      (hgathers : P.Gathers s.launched G) (hhanded : cell ∈ s.cells)
      (hmissing : ¬ P.group ⊆ s.launched) (hpending : (P.desk s.platform).cells.IsPending cell)
  /-- The promise of the group has been taken out of it, and was kept or is going to be. -/
  | complete (hall : P.group ⊆ s.launched) (hhanded : cell ∈ s.cells)
      (hresult : (P.desk s.platform).result? cell = some (.ok P.contributions) ∧
          (P.desk s.platform).cells.waiters cell = [] ∨
        (P.desk s.platform).cells.IsPending cell ∧
          ∃ r ∈ P.group, .work (.resolve P.contributions (P.seat cell r)) ∈ s.asked)

/-- A party is on its course, its members meeting for this cell. -/
structure Met (cell : Nat) (s : Bout) : Prop where
  nodup : s.launched.Nodup
  subset : s.launched ⊆ P.group
  asked : ∀ e ∈ s.asked, P.Allows cell s e
  waiters : ∃ members ⊆ P.group,
    (P.desk s.platform).cells.waiters cell = members.map (P.seat cell)
  /-- Whoever has come is owed the end of its call, once. -/
  debts : (s.asked.flatMap Effect.calls ++
    ((P.desk s.platform).cells.waiters cell).map Participant.call).Perm (s.launched.map P.call)
  /-- Nothing has happened to a member whose call has not ended. -/
  fresh : ∀ r ∈ P.group, (∀ o, .settle (P.call r) o ∉ s.asked) →
    s.platform.host? (P.host r) = P.platform.host? (P.host r)
  ended : ∀ r ∈ P.group, ∀ o, .settle (P.call r) o ∈ s.asked →
    s.platform.host? (P.host r) =
      (P.platform.host? (P.host r)).map fun state => { state with arena := (P.final r).1 }
  phase : P.Phase cell s

variable {P} {cell r : Nat} {s : Bout} {launched : List Nat} {G : RendezvousGroup (List Bytes)}

theorem Allows.mono {s' : Bout} {e : Effect Work} (h : P.Allows cell s e)
    (hlaunched : s.launched ⊆ s'.launched)
    (hresult : (P.desk s.platform).result? cell = some (.ok P.contributions) →
      (P.desk s'.platform).result? cell = some (.ok P.contributions)) : P.Allows cell s' e := by
  cases h with
  | settle hr => exact .settle hr
  | attend hr => exact .attend hr
  | resolve hr hall => exact .resolve hr (List.Subset.trans hall hlaunched)
  | handOut hmembers hready => exact .handOut hmembers fun hne => hresult (hready hne)

namespace Gathers

theorem empty (cell : Nat) : P.Gathers [] (.empty cell P.group.length) :=
  ⟨rfl, rfl, by simp [RendezvousGroup.empty, List.map_const']⟩

theorem add (h : P.Gathers launched G) (hr : r ∈ P.group) (hnodup : P.group.Nodup) :
    P.Gathers (r :: launched) (G.add (P.rank r) (P.brought r)) := by
  refine ⟨h.promised, by rw [RendezvousGroup.add, h.arrived, List.length_cons], ?_⟩
  rw [RendezvousGroup.add, h.slots]
  refine List.ext_getElem (by simp) fun i hi hi' => ?_
  have hlt : i < P.group.length := by simpa using hi'
  rw [List.getElem_set, List.getElem_map, List.getElem_map]
  by_cases hri : P.group[i] = r
  · have hrank : P.rank r = i := by rw [rank, ← hri, hnodup.idxOf_getElem i hlt]
    simp [hrank, hri]
  · have hrank : P.rank r ≠ i := fun h => hri (by
      subst h
      exact List.getElem_idxOf (List.idxOf_lt_length_iff.2 hr))
    simp [hrank, hri]

theorem free (h : P.Gathers launched G) (hr : r ∈ P.group) (hnew : r ∉ launched) :
    G.slots[P.rank r]?.join = none := by
  have hlt := List.idxOf_lt_length_iff.2 hr
  rw [h.slots, List.getElem?_map, rank, List.getElem?_eq_getElem hlt, List.getElem_idxOf hlt]
  simp [hnew]

theorem drained (h : P.Gathers launched G) (hall : P.group ⊆ launched) :
    G.slots.filterMap id = P.contributions := by
  rw [h.slots, List.filterMap_map, contributions, ← List.filterMap_eq_map']
  exact List.filterMap_congr fun r hr => by simp [hall hr]

end Gathers

/-- Something is done that changes neither the group nor what has become of the promise. -/
theorem Phase.keep (h : P.Phase cell s) (hasked : s.asked ≠ []) {p : Platform}
    {asked : List (Effect Work)}
    (hgroup : (P.desk p).group? P.key = (P.desk s.platform).group? P.key)
    (hpending : (P.desk s.platform).cells.IsPending cell → (P.desk p).cells.IsPending cell)
    (hkept : (P.desk s.platform).result? cell = some (.ok P.contributions) →
      (P.desk s.platform).cells.waiters cell = [] →
      (P.desk p).result? cell = some (.ok P.contributions) ∧ (P.desk p).cells.waiters cell = [])
    (hresolve : (P.desk s.platform).cells.IsPending cell →
      ∀ r, .work (.resolve P.contributions (P.seat cell r)) ∈ s.asked →
        .work (.resolve P.contributions (P.seat cell r)) ∈ asked) :
    P.Phase cell { s with platform := p, asked } := by
  cases h with
  | vacant _ hnone => exact (hasked hnone).elim
  | gathering hG hcell hgathers hhanded hmissing hp =>
    exact .gathering (hgroup.trans hG) hcell hgathers hhanded hmissing (hpending hp)
  | complete hall hhanded hresult =>
    refine .complete hall hhanded (hresult.imp (fun hr => hkept hr.1 hr.2) ?_)
    exact fun ⟨hp, r, hr, hmem⟩ => ⟨hpending hp, r, hr, hresolve hp r hmem⟩

/-! ### A member comes -/

theorem length_key (P : Party) : P.key.size = P.group.length := by
  simp [key, devices, RendezvousKey.size]

theorem kind_dealt (P : Party) (r : Nat) : (P.dealt r).kind = P.exchange.kind :=
  (P.op r).kind_exchangeIn _ _

theorem enter_eq (P : Party) (r : Nat) (t : Transport Participant) :
    t.enter (P.dealt r) P.key (P.rank r) (P.brought r) =
      (t.set P.exchange.kind
          ((t.get P.exchange.kind).enter P.key (P.rank r) (P.brought r)).1,
        ((t.get P.exchange.kind).enter P.key (P.rank r) (P.brought r)).2) := by
  have hfits : ¬ ((P.dealt r).kind = .allToAll ∧ (P.brought r).length ≠ P.key.size) := by
    rw [kind_dealt, length_key, brought]
    rintro ⟨hkind, hlength⟩
    have hexchange : P.exchange = .allToAll := by
      cases h : P.exchange <;> rw [h] at hkind <;> cases hkind
    rw [if_pos hexchange] at hlength
    exact hlength (Bytes.length_blocks ..)
  rw [Transport.enter, if_neg hfits, kind_dealt]

/-- What becomes of a party when a member comes whose host is as it was at first. -/
theorem IsWellFormed.launch_eq (hP : P.IsWellFormed) (hr : r ∈ P.group)
    (hhost : s.platform.host? (P.host r) = P.platform.host? (P.host r)) : ∃ timers,
    P.launch r s =
      { platform := { s.platform with
          transport := s.platform.transport.set P.exchange.kind
            ((P.desk s.platform).enter P.key (P.rank r) (P.brought r)).1
          timers }
        launched := r :: s.launched
        cells := (Platform.joined (P.call r) ⟨P.dealt r, P.key, P.rank r, P.brought r⟩
          (P.destination r) ((P.desk s.platform).enter P.key (P.rank r) (P.brought r)).2).flatMap
            Effect.cells ++ s.cells
        asked := Platform.joined (P.call r) ⟨P.dealt r, P.key, P.rank r, P.brought r⟩
          (P.destination r) ((P.desk s.platform).enter P.key (P.rank r) (P.brought r)).2 ++
            s.asked } := by
  obtain ⟨timers, hlaunch⟩ := s.platform.launchCollective_of_ok (hP.entry_eq hr hhost)
  refine ⟨timers, ?_⟩
  rw [launch, Platform.launch, hlaunch]
  simp only [enter_eq, Backend.opening]
  rfl

theorem desk_set (P : Party) (p : Platform) (d : Rendezvous (List Bytes) Participant)
    (timers : Timers Expiry) :
    P.desk { p with transport := p.transport.set P.exchange.kind d, timers } = d := by
  rw [desk, Transport.get_set, if_pos rfl]

theorem desk_register (P : Party) (p : Platform) (cell : Nat) (t : Participant) :
    P.desk { p with transport := p.transport.register P.exchange.kind cell t } =
      (P.desk p).register cell t := desk_set ..

theorem IsWellFormed.handedOut_final (hP : P.IsWellFormed) (cell : Nat) (hr : r ∈ P.group)
    (ts : List Participant) : Platform.handedOut (P.seat cell r) ts (P.final r).2 =
      [.settle (P.call r) (P.outcome r), .work (.handOut ts)] := by
  have hend := Arena.receive_not_panic (hP.small r hr) (P.received r) (P.arena r)
  rw [outcome]
  rcases h : (P.final r).2 with (e | text) | u
  · rfl
  · exact (hend text h).elim
  · rfl

theorem calls_of_seats {w : Work} {members : List Nat}
    (hw : w.participants = members.map (P.seat cell)) : w.calls = members.map P.call := by
  rw [Work.calls, hw, List.map_map]
  rfl

/-- To the first of those that get their results, its own is handed out. -/
theorem IsWellFormed.handOut_eq (hP : P.IsWellFormed) {members : List Nat} (hr : r ∈ P.group)
    (hresult : (P.desk s.platform).result? cell = some (.ok P.contributions))
    (hhost : s.platform.host? (P.host r) = P.platform.host? (P.host r)) :
    s.platform.handOut ((r :: members).map (P.seat cell)) =
      (s.platform.setArena (P.host r) (P.final r).1,
        [.settle (P.call r) (P.outcome r), .work (.handOut (members.map (P.seat cell)))]) := by
  have hreceived : s.platform.received (P.seat cell r) = P.received r := by
    rw [Platform.received, Transport.contributions?, seat, kind_dealt]
    rw [desk] at hresult
    rw [hresult]
    rfl
  have harena : s.platform.arenaOf (P.host r) = P.arena r := by
    rw [Platform.arenaOf, hhost]
    rfl
  rw [List.map_cons, Platform.handOut_cons, hreceived, ← hP.handedOut_final cell hr, final, ← harena]
  rfl

variable (P) in
/-- A member has come, and one thing is asked for that will end its call. -/
structure Joins (cell r : Nat) (s : Bout) (p : Platform) (w : Work) : Prop where
  hosts : p.hosts = s.platform.hosts
  result : (P.desk p).result? cell = (P.desk s.platform).result? cell
  waiters : (P.desk p).cells.waiters cell = (P.desk s.platform).cells.waiters cell
  participants : w.participants = [P.seat cell r]
  allows : P.Allows cell ⟨p, r :: s.launched, cell :: s.cells, .work w :: s.asked⟩ (.work w)
  phase : P.Phase cell ⟨p, r :: s.launched, cell :: s.cells, .work w :: s.asked⟩

variable (P) in
/-- What the party comes to when some work is done and `rest` is left. -/
inductive Performs (cell : Nat) (s : Bout) (rest : List (Effect Work)) : Work → Bout → Prop
  | register {r : Nat} (hr : r ∈ P.group) (hpending : (P.desk s.platform).cells.IsPending cell) :
      Performs cell s rest (.attend (P.seat cell r)) { s with
        platform := { s.platform with
          transport := s.platform.transport.register P.exchange.kind cell (P.seat cell r) }
        asked := rest }
  /-- The promise is kept, and the results are about to be handed out. -/
  | resolve {r : Nat} {p : Platform} (hr : r ∈ P.group) (hall : P.group ⊆ s.launched)
      (hhosts : p.hosts = s.platform.hosts)
      (hresult : (P.desk p).result? cell = some (.ok P.contributions))
      (hnobody : (P.desk p).cells.waiters cell = []) :
      Performs cell s rest (.resolve P.contributions (P.seat cell r)) { s with
        platform := p
        asked := .work (.handOut
          ((P.desk s.platform).cells.waiters cell ++ [P.seat cell r])) :: rest }
  /-- A member receives its result, and its call ends. -/
  | receive {r : Nat} {members : List Nat} {w : Work} (hr : r ∈ P.group)
      (hmembers : members ⊆ P.group)
      (hresult : (P.desk s.platform).result? cell = some (.ok P.contributions))
      (hw : w.participants = (r :: members).map (P.seat cell)) :
      Performs cell s rest w { s with
        platform := s.platform.setArena (P.host r) (P.final r).1
        asked := .settle (P.call r) (P.outcome r) ::
          .work (.handOut (members.map (P.seat cell))) :: rest }
  | finish : Performs cell s rest (.handOut []) { s with asked := rest }

namespace Met

variable (h : P.Met cell s)
include h

theorem not_settled (hP : P.IsWellFormed) (hr : r ∈ P.group) (hnew : r ∉ s.launched) (o : Outcome) :
    .settle (P.call r) o ∉ s.asked := fun hmem => by
  have hcall : P.call r ∈ s.launched.map P.call := h.debts.subset (List.mem_append_left _
    (List.mem_flatMap.2 ⟨_, hmem, List.mem_singleton_self _⟩))
  obtain ⟨k, hk, heq⟩ := List.mem_map.1 hcall
  exact hnew (hP.call_inj (h.subset hk) hr heq ▸ hk)

theorem groupFor (hnew : ¬ P.group ⊆ s.launched) :
    P.Gathers s.launched ((P.desk s.platform).groupFor P.key).2 ∧
      ((P.desk s.platform).groupFor P.key).2.cell = cell ∧
      ((P.desk s.platform).groupFor P.key).1.cells.IsPending cell := by
  cases h.phase with
  | vacant hlaunched hasked hgroup hcell =>
    rw [Rendezvous.groupFor_of_none hgroup, length_key, hlaunched, hcell]
    refine ⟨.empty _, rfl, by simp, ?_⟩
    rw [Cells.result?_fresh]
    simp [Cells.result?]
  | gathering hgroup hcell hgathers hhanded hmissing hpending =>
    rw [Rendezvous.groupFor_of_some hgroup]
    exact ⟨hgathers, hcell, hpending⟩
  | complete hall => exact (hnew hall).elim

theorem joins (hP : P.IsWellFormed) (hr : r ∈ P.group) (hnew : r ∉ s.launched) :
    ∃ p w, P.launch r s = ⟨p, r :: s.launched, cell :: s.cells, .work w :: s.asked⟩ ∧
      P.Joins cell r s p w := by
  obtain ⟨timers, hlaunch⟩ := hP.launch_eq hr (h.fresh r hr (h.not_settled hP hr hnew))
  obtain ⟨hgathers, hcell, hpending⟩ := h.groupFor fun hall => hnew (hall hr)
  have hchanged := (P.desk s.platform).changedAt_groupFor P.key
  have hrank : P.rank r < P.key.size := length_key P ▸ List.idxOf_lt_length_iff.2 hr
  have henter := (P.desk s.platform).enter_eq P.key hrank (hgathers.free hr hnew) (P.brought r)
  obtain ⟨desk, hdesk⟩ : ∃ desk, ((P.desk s.platform).groupFor P.key).1 = desk := ⟨_, rfl⟩
  obtain ⟨G, hG⟩ : ∃ G, ((P.desk s.platform).groupFor P.key).2 = G := ⟨_, rfl⟩
  rw [hdesk, hG] at henter
  rw [hG] at hgathers hcell
  rw [hdesk] at hpending hchanged
  subst hcell
  have hfull := hgathers.add hr hP.nodup
  have hall : P.group ⊆ r :: s.launched ↔ P.group.length ≤ (r :: s.launched).length :=
    ⟨fun hsub => (List.subperm_of_subset hP.nodup hsub).length_le, fun hle =>
      ((List.subperm_of_subset (List.nodup_cons.2 ⟨hnew, h.nodup⟩)
        (List.cons_subset.2 ⟨hr, h.subset⟩)).perm_of_length_le hle).symm.subset⟩
  rw [Rendezvous.leave, hfull.arrived, hfull.promised, length_key] at henter
  by_cases hlt : (r :: s.launched).length < P.group.length
  · rw [if_pos hlt] at henter
    rw [hlaunch, henter]
    refine ⟨_, .attend (P.seat G.cell r), rfl, rfl, ?_, ?_, rfl, .attend hr,
      .gathering (G := G.add (P.rank r) (P.brought r)) ?_ rfl hfull List.mem_cons_self ?_ ?_⟩
    · rw [desk_set]
      exact hchanged.result _
    · rw [desk_set]
      exact hchanged.waiters _
    · rw [desk_set, Rendezvous.group?_store_self]
    · rw [hall]
      exact Nat.not_le_of_lt hlt
    · rw [desk_set]
      exact hpending
  · have hlaunched := hall.2 (Nat.le_of_not_lt hlt)
    rw [if_neg hlt, if_pos rfl, hfull.drained hlaunched] at henter
    rw [hlaunch, henter]
    refine ⟨_, .resolve P.contributions (P.seat G.cell r), rfl, rfl, ?_, ?_, rfl,
      .resolve hr hlaunched,
      .complete hlaunched List.mem_cons_self (.inr ⟨?_, r, hr, List.mem_cons_self⟩)⟩
    · rw [desk_set]
      exact hchanged.result _
    · rw [desk_set]
      exact hchanged.waiters _
    · rw [desk_set]
      exact hpending

theorem join (hr : r ∈ P.group) (hnew : r ∉ s.launched) {p : Platform} {w : Work}
    (hj : P.Joins cell r s p w) :
    P.Met cell ⟨p, r :: s.launched, cell :: s.cells, .work w :: s.asked⟩ where
  nodup := List.nodup_cons.2 ⟨hnew, h.nodup⟩
  subset := List.cons_subset.2 ⟨hr, h.subset⟩
  asked := List.forall_mem_cons.2 ⟨hj.allows, fun e he => (h.asked e he).mono
    (List.subset_cons_self ..) fun hready => hj.result.trans hready⟩
  waiters := hj.waiters ▸ h.waiters
  debts := by
    rw [hj.waiters, List.flatMap_cons, Effect.calls, Work.calls, hj.participants]
    exact h.debts.cons _
  fresh := fun k hk hnone => by
    rw [Platform.host?, hj.hosts]
    exact h.fresh k hk fun o ho => hnone o (List.mem_cons_of_mem _ ho)
  ended := fun k hk o ho => by
    rw [Platform.host?, hj.hosts]
    exact h.ended k hk o ((List.mem_cons.1 ho).resolve_left (by simp))
  phase := hj.phase

theorem launch (hP : P.IsWellFormed) (hr : r ∈ P.group) (hnew : r ∉ s.launched) :
    P.Met cell (P.launch r s) := by
  obtain ⟨p, w, heq, hj⟩ := h.joins hP hr hnew
  exact heq ▸ h.join hr hnew hj

/-! ### Work is done -/

theorem host_of_work (hP : P.IsWellFormed) {w : Work} {rest : List (Effect Work)}
    (hperm : s.asked.Perm (.work w :: rest)) (hr : r ∈ P.group) (hcall : P.call r ∈ w.calls) :
    s.platform.host? (P.host r) = P.platform.host? (P.host r) := by
  refine h.fresh r hr fun o hmem => ?_
  have hrest : .settle (P.call r) o ∈ rest :=
    (List.mem_cons.1 (hperm.mem_iff.1 hmem)).resolve_left (by simp)
  have hnodup : (s.launched.map P.call).Nodup := h.nodup.map_on fun k hk k' hk' heq =>
    hP.call_inj (h.subset hk) (h.subset hk') heq
  have hcalls := List.nodup_append.1 (h.debts.nodup_iff.2 hnodup)
  have htwice := ((hperm.flatMap_right Effect.calls).nodup_iff.1 hcalls.1)
  rw [List.flatMap_cons, List.nodup_append] at htwice
  exact htwice.2.2 _ hcall _ (List.mem_flatMap.2 ⟨_, hrest, List.mem_singleton_self _⟩) rfl

theorem isPending_or_result (hasked : s.asked ≠ []) :
    (P.desk s.platform).cells.IsPending cell ∨
      (P.desk s.platform).result? cell = some (.ok P.contributions) := by
  cases h.phase with
  | vacant _ hnone => exact (hasked hnone).elim
  | gathering _ _ _ _ _ hpending => exact .inl hpending
  | complete _ _ hresult => exact hresult.symm.imp And.left And.left

/-- Whether or not the promise has been kept before, it is when the last member has come, and nobody
waits any longer. -/
theorem settled (hasked : s.asked ≠ []) (hall : P.group ⊆ s.launched) :
    (s.platform.transport.settle P.exchange.kind cell P.contributions).2 =
        (P.desk s.platform).cells.waiters cell ∧
      ((P.desk s.platform).settle cell (.ok P.contributions)).1.result? cell =
        some (.ok P.contributions) ∧
      ((P.desk s.platform).settle cell (.ok P.contributions)).1.cells.waiters cell = [] := by
  have hwoken : (s.platform.transport.settle P.exchange.kind cell P.contributions).2 =
    ((P.desk s.platform).cells.settle cell (.ok P.contributions)).2 := rfl
  rw [hwoken]
  cases h.phase with
  | vacant _ hnone => exact (hasked hnone).elim
  | gathering _ _ _ _ hmissing => exact (hmissing hall).elim
  | complete _ _ hresult =>
    rcases hresult with ⟨hsettled, hempty⟩ | ⟨hpending, -⟩
    · have hsame : (P.desk s.platform).cells.settle cell (.ok P.contributions) =
          ((P.desk s.platform).cells, []) :=
        Cells.settle_of_isSettled (Cells.isSettled_iff.2 ⟨_, hsettled⟩) _
      rw [Rendezvous.settle, hsame]
      exact ⟨hempty.symm, hsettled, hempty⟩
    · exact ⟨congrArg Prod.snd (Cells.settle_of_isPending hpending _),
        (Cells.result?_settle hpending _ _).trans (if_pos rfl),
        (Cells.waiters_settle hpending _ _).trans (if_pos rfl)⟩

theorem performs (hP : P.IsWellFormed) {w : Work} {rest : List (Effect Work)}
    (hperm : s.asked.Perm (.work w :: rest)) :
    P.Performs cell s rest w { s with
      platform := (Platform.backend.perform w s.platform).1
      asked := (Platform.backend.perform w s.platform).2.1 ++ rest } := by
  have hmem : .work w ∈ s.asked := hperm.mem_iff.2 List.mem_cons_self
  have hasked : s.asked ≠ [] := List.ne_nil_of_mem hmem
  have hreceives : ∀ {r members}, r ∈ P.group → members ⊆ P.group →
      (P.desk s.platform).result? cell = some (.ok P.contributions) →
      w.participants = (r :: members).map (P.seat cell) → P.Performs cell s rest w { s with
        platform := (s.platform.handOut ((r :: members).map (P.seat cell))).1
        asked := (s.platform.handOut ((r :: members).map (P.seat cell))).2 ++ rest } :=
      fun hr hmembers hresult hw => by
    rw [hP.handOut_eq hr hresult (h.host_of_work hP hperm hr
      (calls_of_seats hw ▸ List.mem_cons_self))]
    exact .receive hr hmembers hresult hw
  cases h.asked _ hmem with
  | @attend r hr =>
    simp only [Platform.backend]
    rcases h.isPending_or_result hasked with hpending | hresult
    · have hnone : s.platform.transport.contributions? (P.dealt r).kind cell = none := by
        rw [kind_dealt]
        exact hpending.2
      rw [s.platform.attend_of_pending hnone]
      dsimp only [seat]
      rw [kind_dealt]
      exact .register hr hpending
    · have hsome : s.platform.transport.contributions? (P.dealt r).kind cell =
          some (.ok P.contributions) := by
        rw [kind_dealt]
        exact hresult
      rw [s.platform.attend_of_settled hsome]
      exact hreceives hr (List.nil_subset _) hresult rfl
  | @resolve r hr hall =>
    obtain ⟨hwoken, hresult, hnobody⟩ := h.settled hasked hall
    simp only [Platform.backend, Platform.resolve, seat, kind_dealt, hwoken]
    refine .resolve hr hall rfl ?_ ?_
    · exact (congrArg (·.result? cell) (desk_set ..)).trans hresult
    · exact (congrArg (·.cells.waiters cell) (desk_set ..)).trans hnobody
  | @handOut members hmembers hready =>
    cases members with
    | nil => exact .finish
    | cons r members =>
      obtain ⟨hr, hmembers⟩ := List.cons_subset.1 hmembers
      exact hreceives hr hmembers (hready (List.cons_ne_nil _ _)) rfl

/-- Work is done that ends no call. -/
theorem pass (new : List (Effect Work)) {p : Platform} {w : Work} {rest : List (Effect Work)}
    (hperm : s.asked.Perm (.work w :: rest)) (hhosts : p.hosts = s.platform.hosts)
    (hnew : ∀ e ∈ new, P.Allows cell { s with platform := p, asked := new ++ rest } e)
    (hwork : ∀ c o, .settle c o ∉ new)
    (hresult : (P.desk s.platform).result? cell = some (.ok P.contributions) →
      (P.desk p).result? cell = some (.ok P.contributions))
    (hwaiters : ∃ members ⊆ P.group, (P.desk p).cells.waiters cell = members.map (P.seat cell))
    (hdebts : (new.flatMap Effect.calls ++
      ((P.desk p).cells.waiters cell).map Participant.call).Perm
        (w.calls ++ ((P.desk s.platform).cells.waiters cell).map Participant.call))
    (hphase : P.Phase cell { s with platform := p, asked := new ++ rest }) :
    P.Met cell { s with platform := p, asked := new ++ rest } := by
  have hsettle : ∀ c o, .settle c o ∈ new ++ rest ↔ .settle c o ∈ s.asked := fun c o => by
    simp [hperm.mem_iff, hwork]
  refine ⟨h.nodup, h.subset, fun e he => ?_, hwaiters, ?_, fun r hr hnone => ?_, fun r hr o ho => ?_,
    hphase⟩
  · rcases List.mem_append.1 he with he | he
    · exact hnew e he
    · exact (h.asked e (hperm.mem_iff.2 (List.mem_cons_of_mem _ he))).mono
        (List.Subset.refl _) hresult
  · have hold := (hperm.flatMap_right Effect.calls).append_right
      (((P.desk s.platform).cells.waiters cell).map Participant.call)
    rw [List.flatMap_append, List.append_assoc]
    refine (List.perm_append_comm_assoc ..).trans ((hdebts.append_left _).trans ?_)
    refine (List.perm_append_comm_assoc ..).trans (.trans (.of_eq ?_) (hold.symm.trans h.debts))
    rw [List.flatMap_cons, List.append_assoc]
    rfl
  · rw [Platform.host?, hhosts]
    exact h.fresh r hr fun o ho => hnone o ((hsettle _ _).2 ho)
  · rw [Platform.host?, hhosts]
    exact h.ended r hr o ((hsettle _ _).1 ho)

/-- A member that waits does so at the cell. -/
theorem register {r : Nat} {rest : List (Effect Work)} (hr : r ∈ P.group)
    (hperm : s.asked.Perm (.work (.attend (P.seat cell r)) :: rest))
    (hpending : (P.desk s.platform).cells.IsPending cell) :
    P.Met cell { s with
      platform := { s.platform with
        transport := s.platform.transport.register P.exchange.kind cell (P.seat cell r) }
      asked := rest } := by
  have hdesk := P.desk_register s.platform cell (P.seat cell r)
  have hwaiters := Cells.waiters_register hpending.1 (P.seat cell r) cell
  rw [if_pos rfl] at hwaiters
  refine h.pass [] hperm rfl (by simp) (by simp) ?_ ?_ ?_ ?_
  · rw [hdesk]
    exact fun hresult => (Cells.result?_register ..).trans hresult
  · obtain ⟨members, hmembers, hwait⟩ := h.waiters
    refine ⟨members ++ [r], List.append_subset.2 ⟨hmembers, List.cons_subset.2 ⟨hr, List.nil_subset _⟩⟩, ?_⟩
    rw [hdesk, Rendezvous.register, hwaiters, hwait, List.map_append]
    rfl
  · rw [hdesk, Rendezvous.register, hwaiters, List.map_append]
    exact List.perm_append_singleton ..
  · refine h.phase.keep (List.ne_nil_of_mem (hperm.mem_iff.2 List.mem_cons_self)) ?_ ?_ ?_ ?_
    · rw [hdesk]
      rfl
    · rw [hdesk]
      exact fun hp => ⟨(Cells.size_register ..).symm ▸ hp.1, (Cells.result?_register ..).trans hp.2⟩
    · intro hresult
      cases hpending.2.symm.trans hresult
    · exact fun _ k hk => (List.mem_cons.1 (hperm.mem_iff.1 hk)).resolve_left (by simp)

/-- The promise is kept, and the results are about to be handed out. -/
theorem resolve {r : Nat} {p : Platform} {rest : List (Effect Work)} (hr : r ∈ P.group)
    (hall : P.group ⊆ s.launched)
    (hperm : s.asked.Perm (.work (.resolve P.contributions (P.seat cell r)) :: rest))
    (hhosts : p.hosts = s.platform.hosts)
    (hresult : (P.desk p).result? cell = some (.ok P.contributions))
    (hnobody : (P.desk p).cells.waiters cell = []) :
    P.Met cell { s with
      platform := p
      asked := .work (.handOut
        ((P.desk s.platform).cells.waiters cell ++ [P.seat cell r])) :: rest } := by
  obtain ⟨members, hmembers, hwait⟩ := h.waiters
  have hhanded : (P.desk s.platform).cells.waiters cell ++ [P.seat cell r] =
      (members ++ [r]).map (P.seat cell) := by
    rw [hwait, List.map_append]
    rfl
  refine h.pass [_] hperm hhosts ?_ (by simp) (fun _ => hresult) ⟨[], by simp, hnobody⟩ ?_ ?_
  · rw [hhanded]
    refine List.forall_mem_singleton.2 (.handOut ?_ fun _ => hresult)
    exact List.append_subset.2 ⟨hmembers, List.cons_subset.2 ⟨hr, List.nil_subset _⟩⟩
  · rw [hnobody]
    simp [Effect.calls, Work.calls, Work.participants]
  · cases h.phase with
    | vacant _ hnone =>
      exact absurd hnone (List.ne_nil_of_mem (hperm.mem_iff.2 List.mem_cons_self))
    | gathering _ _ _ _ hmissing => exact (hmissing hall).elim
    | complete _ hcells => exact .complete hall hcells (.inl ⟨hresult, hnobody⟩)

/-- A member receives its result, and its call ends. -/
theorem receive (hP : P.IsWellFormed) {r : Nat} {members : List Nat} {w : Work}
    {rest : List (Effect Work)} (hr : r ∈ P.group) (hmembers : members ⊆ P.group)
    (hresult : (P.desk s.platform).result? cell = some (.ok P.contributions))
    (hperm : s.asked.Perm (.work w :: rest)) (hw : w.participants = (r :: members).map (P.seat cell)) :
    P.Met cell { s with
      platform := s.platform.setArena (P.host r) (P.final r).1
      asked := .settle (P.call r) (P.outcome r) ::
        .work (.handOut (members.map (P.seat cell))) :: rest } := by
  have hcalls : w.calls = P.call r :: members.map P.call := calls_of_seats hw
  have hhost := h.host_of_work hP hperm hr (hcalls ▸ List.mem_cons_self)
  have hother : ∀ k ∈ P.group, k ≠ r →
      (s.platform.setArena (P.host r) (P.final r).1).host? (P.host k) =
        s.platform.host? (P.host k) := fun k hk hne => by
    rw [Platform.host?_setArena, if_neg fun heq => hne (hP.host_inj hr hk heq).symm]
  have hsettle : ∀ k ∈ P.group, k ≠ r → ∀ o,
      .settle (P.call k) o ∈ Effect.settle (P.call r) (P.outcome r) ::
        .work (.handOut (members.map (P.seat cell))) :: rest ↔
          .settle (P.call k) o ∈ s.asked := fun k hk hne o => by
    have hcall : P.call k ≠ P.call r := fun heq => hne (hP.call_inj hk hr heq)
    simp [hperm.mem_iff, hcall]
  refine ⟨h.nodup, h.subset, List.forall_mem_cons.2 ⟨.settle hr, List.forall_mem_cons.2
    ⟨.handOut hmembers fun _ => hresult, fun e he => ?_⟩⟩, h.waiters, ?_, fun k hk hnone => ?_,
    fun k hk o ho => ?_, ?_⟩
  · exact (h.asked e (hperm.mem_iff.2 (List.mem_cons_of_mem _ he))).mono (List.Subset.refl _) id
  · refine .trans (.of_eq ?_) (((hperm.flatMap_right Effect.calls).append_right _).symm.trans h.debts)
    have hrest : (Work.handOut (members.map (P.seat cell))).calls = members.map P.call :=
      calls_of_seats rfl
    simp only [List.flatMap_cons, Effect.calls, hcalls, hrest]
    rfl
  · have hne : k ≠ r := fun heq => hnone (P.outcome r) (by simp [heq])
    exact (hother k hk hne).trans (h.fresh k hk fun o ho => hnone o ((hsettle k hk hne o).2 ho))
  · by_cases hne : k = r
    · subst hne
      rw [Platform.host?_setArena, if_pos rfl, hhost]
    · exact (hother k hk hne).trans (h.ended k hk o ((hsettle k hk hne o).1 ho))
  · refine h.phase.keep (List.ne_nil_of_mem (hperm.mem_iff.2 List.mem_cons_self)) rfl id
      And.intro fun hpending => ?_
    cases hpending.2.symm.trans hresult

theorem perform (hP : P.IsWellFormed) {w : Work} {rest : List (Effect Work)}
    (hperm : s.asked.Perm (.work w :: rest)) :
    P.Met cell { s with
      platform := (Platform.backend.perform w s.platform).1
      asked := (Platform.backend.perform w s.platform).2.1 ++ rest } := by
  have hperforms := h.performs hP hperm
  revert hperforms
  generalize ({ s with
    platform := (Platform.backend.perform w s.platform).1
    asked := (Platform.backend.perform w s.platform).2.1 ++ rest } : Bout) = s'
  intro hperforms
  cases hperforms with
  | register hr hpending => exact h.register hr hperm hpending
  | resolve hr hall hhosts hresult hnobody => exact h.resolve hr hall hperm hhosts hresult hnobody
  | receive hr hmembers hresult hw => exact h.receive hP hr hmembers hresult hperm hw
  | finish =>
    refine h.pass [] (p := s.platform) hperm rfl (by simp) (by simp) id h.waiters (.refl _)
      (h.phase.keep (List.ne_nil_of_mem (hperm.mem_iff.2 List.mem_cons_self)) rfl id And.intro
        fun _ k hk => ?_)
    exact (List.mem_cons.1 (hperm.mem_iff.1 hk)).resolve_left (by simp)

theorem own (hP : P.IsWellFormed) {s' : Bout} (hown : P.Own s s') : P.Met cell s' := by
  cases hown with
  | launch hr hnew => exact h.launch hP hr hnew
  | perform hperm => exact h.perform hP hperm

end Met

theorem IsWellFormed.met_start (hP : P.IsWellFormed) :
    P.Met (P.desk P.platform).cells.size P.start := by
  have hwaiters : (P.desk P.start.platform).cells.waiters (P.desk P.platform).cells.size = [] :=
    Cells.waiters_of_size_le (Nat.le_refl _)
  refine ⟨.nil, List.nil_subset _, by simp [start], ⟨[], List.nil_subset _, hwaiters⟩, ?_,
    fun _ _ _ => rfl, by simp [start], .vacant rfl rfl hP.vacant rfl⟩
  rw [hwaiters]
  exact .refl _

theorem Spares.kept {p : Platform} (hp : P.Spares s p) (hcell : cell ∈ s.cells) :
    (P.desk p).result? cell = (P.desk s.platform).result? cell ∧
      (P.desk p).cells.waiters cell = (P.desk s.platform).cells.waiters cell := by
  constructor
  · rw [Rendezvous.result?, Cells.result?, hp.cell cell hcell]
    rfl
  · rw [Cells.waiters, hp.cell cell hcell, Cells.waiters]

/-- What happens elsewhere does not matter, though the cell may be another one if nobody has been
handed it yet. -/
theorem Met.outside (h : P.Met cell s) {p : Platform} (hp : P.Spares s p) :
    ∃ cell', P.Met cell' { s with platform := p } ∧
      (P.desk p).cells.waiters cell' = (P.desk s.platform).cells.waiters cell := by
  have hfresh : ∀ r ∈ P.group, (∀ o, .settle (P.call r) o ∉ s.asked) →
      p.host? (P.host r) = P.platform.host? (P.host r) :=
    fun r hr hnone => (hp.host r hr).trans (h.fresh r hr hnone)
  have hended := fun r hr o ho => (hp.host r hr).trans (h.ended r hr o ho)
  have hhanded : cell ∈ s.cells → P.Phase cell { s with platform := p } →
      P.Met cell { s with platform := p } ∧
        (P.desk p).cells.waiters cell = (P.desk s.platform).cells.waiters cell :=
      fun hcell hphase => by
    obtain ⟨hresult, hwaiters⟩ := hp.kept hcell
    exact ⟨⟨h.nodup, h.subset, fun e he => (h.asked e he).mono (List.Subset.refl _) hresult.trans,
      hwaiters ▸ h.waiters, hwaiters ▸ h.debts, hfresh, hended, hphase⟩, hwaiters⟩
  cases h.phase with
  | vacant hlaunched hasked hgroup hcell =>
    have hwaiters : (P.desk p).cells.waiters (P.desk p).cells.size = [] :=
      Cells.waiters_of_size_le (Nat.le_refl _)
    refine ⟨(P.desk p).cells.size, ⟨h.nodup, h.subset, by simp [hasked],
      ⟨[], List.nil_subset _, hwaiters⟩, ?_, hfresh, hended,
      .vacant hlaunched hasked (hp.group.trans hgroup) rfl⟩,
      hwaiters.trans (Cells.waiters_of_size_le hcell.ge).symm⟩
    dsimp only
    rw [hwaiters, hasked, hlaunched]
    exact .refl _
  | gathering hgroup hG hgathers hcell hmissing hpending =>
    have hresult := (hp.kept hcell).1
    exact ⟨cell, hhanded hcell (.gathering (hp.group.trans hgroup) hG hgathers hcell hmissing
      ⟨Nat.lt_of_lt_of_le hpending.1 hp.size, hresult.trans hpending.2⟩)⟩
  | complete hall hcell hdone =>
    obtain ⟨hresult, hwaiters⟩ := hp.kept hcell
    refine ⟨cell, hhanded hcell (.complete hall hcell (hdone.imp ?_ ?_))⟩
    · exact fun ⟨hr, hw⟩ => ⟨hresult.trans hr, hwaiters.trans hw⟩
    · exact fun ⟨hr, hmem⟩ => ⟨⟨Nat.lt_of_lt_of_le hr.1 hp.size, hresult.trans hr.2⟩, hmem⟩

theorem Reaches.met (hP : P.IsWellFormed) (hs : P.Reaches s) : ∃ cell, P.Met cell s := by
  induction hs with
  | refl => exact ⟨_, hP.met_start⟩
  | tail _ hstep ih =>
    obtain ⟨cell, h⟩ := ih
    cases hstep with
    | own hown => exact ⟨cell, h.own hP hown⟩
    | outside hp => exact (h.outside hp).imp fun _ => And.left

/-! ### What members end with -/

theorem getElem?_contributions (hr : r ∈ P.group) :
    P.contributions[P.rank r]? = some (P.brought r) := by
  rw [contributions, List.getElem?_map, rank, List.getElem?_idxOf hr, Option.map_some]

/-- Who receives bytes writes them, if they are as many as the destination takes. -/
theorem IsWellFormed.final_of_some (hP : P.IsWellFormed) (hr : r ∈ P.group) {bytes : Bytes}
    (h : P.received r = .ok (some bytes)) :
    (bytes.length = (P.destination r).size → P.outcome r = .ok () ∧
      (P.final r).1.read (P.destination r) = .ok bytes) ∧
    (bytes.length ≠ (P.destination r).size → P.outcome r = .error (.invalidArgument
      ("cannot write " ++ toString bytes.length ++ " bytes into " ++ (P.destination r).describe)) ∧
      (P.final r).1 = P.arena r) := by
  rw [outcome, final, h]
  constructor
  · intro hlength
    obtain ⟨hend, hread⟩ := Arena.receive_fitting (hP.destination r hr) hlength
    rw [hend]
    exact ⟨rfl, hread⟩
  · intro hlength
    rw [Arena.receive_unfitting (P.arena r) hlength]
    exact ⟨rfl, rfl⟩

theorem IsWellFormed.final_of_none (hP : P.IsWellFormed) (hr : r ∈ P.group)
    (h : P.received r = .ok none) : P.outcome r = .ok () ∧
      (P.final r).1.read (P.destination r) = .ok (List.replicate (P.destination r).size 0) := by
  obtain ⟨hend, hread⟩ := Arena.receive_nothing (hP.destination r hr) (hP.small r hr)
  rw [outcome, final, h, hend]
  exact ⟨rfl, hread⟩

theorem exists_map_of_forall_mem {α β : Type} {f : α → β} {p : α → Prop} {ys : List β}
    (h : ∀ y ∈ ys, ∃ x, p x ∧ y = f x) : ∃ xs : List α, ys = xs.map f ∧ ∀ x ∈ xs, p x := by
  induction ys with
  | nil => exact ⟨[], rfl, by simp⟩
  | cons y ys ih =>
    obtain ⟨⟨x, hx, rfl⟩, hys⟩ := List.forall_mem_cons.1 h
    obtain ⟨xs, rfl, hxs⟩ := ih hys
    exact ⟨x :: xs, rfl, List.forall_mem_cons.2 ⟨hx, hxs⟩⟩

section Complete

variable (hP : P.IsWellFormed) (hs : P.Reaches s) (hdone : P.IsComplete s)
include hP hs hdone

/-- When all have come and nothing is left to do, the call of every member has ended once, and nothing
else has become of its host than that its arena is what it has received makes of it. -/
theorem IsComplete.ended :
    s.asked.Perm (P.group.map fun r => .settle (P.call r) (P.outcome r)) ∧
      ∀ r ∈ P.group, s.platform.host? (P.host r) =
        (P.platform.host? (P.host r)).map fun state => { state with arena := (P.final r).1 } := by
  obtain ⟨cell, h⟩ := hs.met hP
  have hnobody : (P.desk s.platform).cells.waiters cell = [] := by
    cases h.phase with
    | vacant _ _ _ hcell => exact Cells.waiters_of_size_le hcell.ge
    | gathering _ _ _ _ hmissing => exact (hmissing hdone.launched).elim
    | complete _ _ hresult =>
      rcases hresult with ⟨-, hnone⟩ | ⟨-, r, -, hmem⟩
      · exact hnone
      · exact (hdone.done _ hmem).elim
  have hends : ∀ e ∈ s.asked, ∃ r ∈ P.group, e = .settle (P.call r) (P.outcome r) := fun e he => by
    cases h.asked e he with
    | settle hr => exact ⟨_, hr, rfl⟩
    | attend | resolve | handOut => exact (hdone.done _ he).elim
  obtain ⟨members, hasked, hmembers⟩ := exists_map_of_forall_mem hends
  have hlaunched : s.launched.Perm P.group :=
    (List.perm_ext_iff_of_nodup h.nodup hP.nodup).2 fun r =>
      ⟨fun hr => h.subset hr, hdone.launched r⟩
  have hcalls : (members.map P.call).Perm (P.group.map P.call) := by
    refine .trans (.of_eq ?_) (h.debts.trans (hlaunched.map P.call))
    rw [hnobody, hasked, List.flatMap_map, List.map_nil, List.append_nil, List.map_eq_flatMap]
    rfl
  have hperm : members.Perm P.group := by
    have hnodup := hcalls.nodup_iff.2 (hP.nodup.map_on fun _ hk _ => hP.call_inj hk)
    refine (List.perm_ext_iff_of_nodup hnodup.of_map hP.nodup).2 fun r => ⟨hmembers r, fun hr => ?_⟩
    obtain ⟨k, hk, heq⟩ := List.mem_map.1 (hcalls.mem_iff.2 (List.mem_map_of_mem hr))
    exact hP.call_inj (hmembers k hk) hr heq ▸ hk
  exact ⟨hasked ▸ hperm.map _, fun r hr =>
    h.ended r hr (P.outcome r) (hasked ▸ List.mem_map_of_mem (hperm.mem_iff.2 hr))⟩

theorem IsComplete.arenaOf_eq (hr : r ∈ P.group) :
    s.platform.arenaOf (P.host r) = (P.final r).1 := by
  obtain ⟨state, ctx, hstate, -⟩ := hP.context r hr
  rw [Platform.arenaOf, (hdone.ended hP hs).2 r hr, hstate]
  rfl

end Complete

end Party

end OpFlow
