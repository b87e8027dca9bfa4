import OpFlow.Proofs.Collective.Separation

/-!
Keys of a rendezvous do not interfere. Out of the moves of a meeting, those that concern one key can be
sifted: its accepted arrivals, the clocks of its generations, and the promises and waiters of their
cells. A meeting that makes only these moves goes through the same generations at the key, in cells
that are numbered anew, and every accepted arrival comes to the same result.
-/
namespace OpFlow

variable {V κ : Type}

namespace Rendezvous

def Admits (r : Rendezvous V κ) (k : RendezvousKey) (rank : Nat) : Prop :=
  rank < k.size ∧ ∀ g, r.group? k = some g → ∀ v, g.slots[rank]? ≠ some (some v)

/-- The groups of a rendezvous are in order: each waits, under its own key, for some of its ranks. -/
structure Consistent (r : Rendezvous V κ) : Prop where
  admitted : ∀ k rank value, r.Admits k rank → ∃ c, (r.enter k rank value).2.answer = .ok c
  /-- Any other arrival is turned away at once, and changes nothing. -/
  rejected : ∀ k rank value, ¬ r.Admits k rank → ∃ e : Error, e.kind = .invalidArgument ∧
    r.enter k rank value = (r, .rejected e) ∧ r.arrive k rank value = (r, .rejected e)
  slots : ∀ k g, r.group? k = some g → g.slots.length = k.size
  arrived : ∀ k g, r.group? k = some g →
    g.arrived = g.slots.countP Option.isSome ∧ g.arrived < k.size
  promised : ∀ k g, r.group? k = some g → g.promised = true ∧ r.result? g.cell = none
  pending : ∃ keys : List RendezvousKey,
    keys.Nodup ∧ (∀ k, k ∈ keys ↔ (r.group? k).isSome) ∧ r.pendingGroups = keys.length

end Rendezvous

namespace Entrance

def withCell (d : Nat) : Entrance V → Entrance V
  | rejected e => rejected e
  | waiting _ isNew => waiting d isNew
  | filled _ promise => filled d promise

theorem due_withCell (d : Nat) (e : Entrance V) :
    (e.withCell d).due = e.due.map fun x => (d, x.2) := by
  cases e with
  | filled c promise => cases promise <;> rfl
  | rejected | waiting => rfl

theorem fst_of_mem_due {e : Entrance V} {x : Nat × Except Error (List V)} (hx : x ∈ e.due) :
    e.answer = .ok x.1 := by
  cases e with
  | filled c promise =>
    cases promise with
    | none => cases hx
    | some values =>
      obtain rfl := List.mem_singleton.1 hx
      rfl
  | rejected | waiting => cases hx

end Entrance

namespace Rendezvous

theorem answer_leave (r : Rendezvous V κ) (k : RendezvousKey) (g : RendezvousGroup V)
    (isNew : Bool) : (r.leave k g isNew).2.answer = .ok g.cell := by
  rw [leave]
  split <;> rfl

theorem cells_leave (r : Rendezvous V κ) (k : RendezvousKey) (g : RendezvousGroup V)
    (isNew : Bool) : (r.leave k g isNew).1.cells = r.cells := by
  rw [leave]
  split <;> rfl

theorem group?_leave (r : Rendezvous V κ) (k : RendezvousKey) (g : RendezvousGroup V)
    (isNew : Bool) :
    (r.leave k g isNew).1.group? k = if g.arrived < k.size then some g else none := by
  rw [leave]
  split
  · exact group?_store_self _ _ _
  · exact group?_forget_self _ _

theorem leave_withCell (r r' : Rendezvous V κ) (k : RendezvousKey) (g : RendezvousGroup V) (d : Nat)
    (isNew : Bool) :
    (r'.leave k { g with cell := d } isNew).2 = (r.leave k g isNew).2.withCell d := by
  rw [leave, leave]
  split <;> rfl

theorem nodup_keys_enter (r : Rendezvous V κ) (h : r.groups.keys.Nodup) (k : RendezvousKey)
    (rank : Nat) (value : V) : (r.enter k rank value).1.groups.keys.Nodup := by
  have hgroups : (r.groupFor k).1.groups = r.groups := by
    rcases r.groupFor_fst k with h | h <;> rw [h]
  rw [enter]
  split
  · exact h
  · dsimp only
    split
    · exact hgroups.symm ▸ h
    · rw [leave]
      split
      · exact Assoc.nodup_keys_set (hgroups.symm ▸ h) _ _
      · exact Assoc.nodup_keys_erase (hgroups.symm ▸ h) _

theorem nodup_keys_lapse (r : Rendezvous V κ) (h : r.groups.keys.Nodup) (k : RendezvousKey)
    (c : Nat) : (r.lapse k c).1.groups.keys.Nodup := by
  rw [lapse]
  split
  · split
    · exact Assoc.nodup_keys_erase h k
    · exact h
  · exact h

end Rendezvous

namespace Mirrors

variable {n : Nat} {G : RendezvousGroup V} {g : Generation V}

theorem countP_slots (h : Mirrors n G g) : G.slots.countP Option.isSome = G.arrived := by
  have hslots : G.slots = (List.range n).map fun rank => G.slots[rank]?.join :=
    List.ext_getElem (by simp [h.size]) fun rank hrank _ => by simp [hrank]
  have hranks : ((List.range n).filter fun rank => rank ∈ g.ranks).Perm g.ranks := by
    refine (List.perm_ext_iff_of_nodup (List.nodup_range.filter _) h.nodup).2 fun rank => ?_
    simpa using h.lt_of_mem_ranks
  have htaken : (fun rank => decide (rank ∈ g.ranks)) =
      Option.isSome ∘ fun rank => G.slots[rank]?.join := by
    funext rank
    rw [Bool.eq_iff_iff, decide_eq_true_iff, Function.comp, h.taken_iff]
  rw [h.arrived, hslots, List.countP_map, ← htaken, List.countP_eq_length_filter, hranks.length_eq,
    Generation.ranks, List.length_map]

end Mirrors

namespace Meeting

def cellsOf (m : Meeting V κ) (k : RendezvousKey) : List Nat :=
  (m.chronicle k).all.map Generation.cell

def place (m : Meeting V κ) (k : RendezvousKey) (c : Nat) : Option Nat := (m.cellsOf k).idxOf? c

/-- What is left of a move when only one key counts. Cells are numbered by their generations, and a
promise that is due by its place among those of the key. -/
def sift (m : Meeting V κ) (k : RendezvousKey) : Move V κ → List (Move V κ)
  | .arrive j rank value =>
    match (m.desk.enter j rank value).2 with
    | .rejected _ => []
    | .waiting _ _ | .filled _ _ => if j = k then [.arrive j rank value] else []
  | .fire j c => if j = k then ((m.place k c).map (.fire k)).toList else []
  | .keep i =>
    match m.due[i]? with
    | some (c, _) =>
      if (m.place k c).isSome then
        [.keep ((m.due.take i).countP fun d => (m.place k d.1).isSome)]
      else []
    | none => []
  | .wait c w => ((m.place k c).map fun d => .wait d w).toList

def siftAll (k : RendezvousKey) : Meeting V κ → List (Move V κ) → List (Move V κ)
  | _, [] => []
  | m, move :: moves => m.sift k move ++ siftAll k (m.step move) moves

def outcomes (m : Meeting V κ) (k : RendezvousKey) :
    List (Nat × V × Option (Except Error (List V))) :=
  (m.accepted k).map fun a => (a.1, a.2.1, m.desk.result? a.2.2)

/-- Nothing has happened but accepted arrivals at a key and its clocks. -/
def OnlyAt (m : Meeting V κ) (k : RendezvousKey) : Prop :=
  ∀ e ∈ m.log, match e with
    | .arrived j _ _ answer => j = k ∧ ∃ c, answer = .ok c
    | .fired j _ => j = k
    | .resolved _ _ => True

/-- A meeting that makes the moves of another at one key and no others. -/
structure Shadow (k : RendezvousKey) (m m' : Meeting V κ) : Prop where
  name : m'.desk.name = m.desk.name
  timeout : m'.desk.timeout = m.desk.timeout
  size : m'.desk.cells.size = (m.cellsOf k).length
  group : m'.desk.group? k = (m.desk.group? k).bind fun g =>
    (m.place k g.cell).map fun c => { g with cell := c }
  due : m'.due = m.due.filterMap fun d => (m.place k d.1).map fun c => (c, d.2)
  result : ∀ c d, m.place k c = some d → m'.desk.result? d = m.desk.result? c
  accepted : (m.accepted k).Forall₂
    (fun a a' => a'.1 = a.1 ∧ a'.2.1 = a.2.1 ∧ m.place k a.2.2 = some a'.2.2) (m'.accepted k)
  only : m'.OnlyAt k

variable {r : Rendezvous V κ} {m m' : Meeting V κ} {j k : RendezvousKey}

/-! ### Places -/

theorem place_inj {c d p : Nat} (hc : m.place k c = some p) (hd : m.place k d = some p) : c = d := by
  obtain ⟨_, hc, -⟩ := List.idxOf?_eq_some_iff.1 hc
  obtain ⟨_, hd, -⟩ := List.idxOf?_eq_some_iff.1 hd
  exact hc.symm.trans hd

theorem place_lt {c p : Nat} (hc : m.place k c = some p) : p < (m.cellsOf k).length :=
  (List.idxOf?_eq_some_iff.1 hc).1

theorem place_isSome_iff {c : Nat} : (m.place k c).isSome ↔ c ∈ m.cellsOf k := List.isSome_idxOf?

theorem place_eq_none_iff {c : Nat} : m.place k c = none ↔ c ∉ m.cellsOf k :=
  List.idxOf?_eq_none_iff

theorem exists_place {c : Nat} (h : c ∈ m.cellsOf k) : ∃ p, m.place k c = some p :=
  Option.isSome_iff_exists.1 (place_isSome_iff.2 h)

theorem place_congr (h : m'.chronicle k = m.chronicle k) : m'.place k = m.place k := by
  funext c
  rw [place, place, cellsOf, cellsOf, h]

theorem place_last {c : Nat} (h : m'.cellsOf k = m.cellsOf k ++ [c]) (hnew : c ∉ m.cellsOf k) :
    m'.place k c = some (m.cellsOf k).length := by
  have hnone := place_eq_none_iff.2 hnew
  rw [place, h]
  simp only [place, List.idxOf?] at hnone ⊢
  rw [List.findIdx?_append, hnone]
  simp

theorem Kept.lt_of_place (h : Kept r m) {c p : Nat} (hc : m.place k c = some p) :
    c < m.desk.cells.size := by
  obtain ⟨g, hg, rfl⟩ := List.mem_map.1 (place_isSome_iff.1 (hc ▸ rfl : (m.place k c).isSome))
  exact h.old k g hg

theorem Kept.ended_of_due (h : Kept r m) {c : Nat} {x : Except Error (List V)}
    (hd : (c, x) ∈ m.due) : ∃ j, ∃ g ∈ (m.chronicle j).ended, g.cell = c := by
  by_contra hnone
  have hquiet := h.quiet c fun j g hg hc => hnone ⟨j, g, hg, hc⟩
  rw [settlements, List.append_eq_nil_iff] at hquiet
  have hmem : x ∈ m.promises c := List.mem_filterMap.2 ⟨(c, x), hd, if_pos rfl⟩
  rw [hquiet.2] at hmem
  cases hmem

theorem Kept.lt_of_due (h : Kept r m) {d : Nat × Except Error (List V)} (hd : d ∈ m.due) :
    d.1 < m.desk.cells.size := by
  obtain ⟨j, g, hg, hc⟩ := h.ended_of_due hd
  exact hc ▸ h.old j g (List.mem_append_left _ hg)

theorem Kept.place_of_group (h : Kept r m) {g : RendezvousGroup V} (hg : m.desk.group? k = some g) :
    ∃ p, m.place k g.cell = some p := by
  obtain ⟨w, hw, hmirror, -⟩ := h.waiting_of_some hg
  exact exists_place (hmirror.cell ▸ List.mem_map_of_mem (by simp [Chronicle.all, hw]))

/-! ### What other keys do -/

/-- Whatever leaves the key alone leaves the shadow alone. -/
theorem Shadow.elsewhere (h : Shadow k m m') {n : Meeting V κ} (hname : n.desk.name = m.desk.name)
    (htimeout : n.desk.timeout = m.desk.timeout) (hgroup : n.desk.group? k = m.desk.group? k)
    (hchronicle : n.chronicle k = m.chronicle k) (haccepted : n.accepted k = m.accepted k)
    (hresult : ∀ c p, m.place k c = some p → n.desk.result? c = m.desk.result? c)
    (hdue : n.due.filterMap (fun d => (m.place k d.1).map fun c => (c, d.2)) =
      m.due.filterMap fun d => (m.place k d.1).map fun c => (c, d.2)) : Shadow k n m' := by
  have hplace := place_congr hchronicle
  refine ⟨h.name.trans hname.symm, h.timeout.trans htimeout.symm, ?_, ?_, ?_, fun c d hc => ?_, ?_,
    h.only⟩
  · rw [h.size, cellsOf, cellsOf, hchronicle]
  · rw [hplace, hgroup, h.group]
  · rw [hplace, hdue, h.due]
  · rw [hplace] at hc
    rw [h.result c d hc, hresult c d hc]
  · rw [hplace, haccepted]
    exact h.accepted

theorem Shadow.noted (h : Shadow k m m') {e : Happening V}
    (hobserve : (m.chronicle k).observe k e = m.chronicle k) (haccepted : e.accepted? k = none) :
    Shadow k { m with log := m.log ++ [e] } m' :=
  h.elsewhere rfl rfl rfl ((chronicle_noted _ _ e m k).trans hobserve)
    (by rw [accepted_noted, haccepted]; simp) (fun _ _ _ => rfl) rfl

theorem filterMap_due_append {due more : List (Nat × Except Error (List V))}
    (hmore : ∀ d ∈ more, m.place k d.1 = none) :
    (due ++ more).filterMap (fun d => (m.place k d.1).map fun c => (c, d.2)) =
      due.filterMap fun d => (m.place k d.1).map fun c => (c, d.2) := by
  have hnil : more.filterMap (fun d => (m.place k d.1).map fun c => (c, d.2)) = [] :=
    List.filterMap_eq_nil_iff.2 fun d hd => by rw [hmore d hd]; rfl
  rw [List.filterMap_append, hnil, List.append_nil]

/-! ### Arrivals -/

theorem Free.place_eq_none {c : Nat} (h : Free j m c) (hne : j ≠ k) : m.place k c = none := by
  rw [place_eq_none_iff]
  intro hmem
  obtain ⟨g, hg, hcell⟩ := List.mem_map.1 hmem
  exact h.others k (Ne.symm hne) g hg hcell

def letIn (m : Meeting V κ) (k : RendezvousKey) (rank : Nat) (value : V) : Meeting V κ :=
  let left := (m.desk.groupFor k).1.leave k ((m.desk.groupFor k).2.add rank value)
    (m.desk.group? k).isNone
  { desk := left.1, due := m.due ++ left.2.due
    log := m.log ++ [.arrived k rank value (.ok (m.desk.groupFor k).2.cell)] }

theorem step_arrive {rank : Nat} {value : V}
    (hent : m.desk.enter k rank value = (m.desk.groupFor k).1.leave k
      ((m.desk.groupFor k).2.add rank value) (m.desk.group? k).isNone) :
    m.step (.arrive k rank value) = m.letIn k rank value := by
  rw [step, hent, letIn]
  dsimp only
  rw [Rendezvous.answer_leave]
  rfl

def enrolled (m : Meeting V κ) (k : RendezvousKey) : List Nat :=
  (m.chronicle k).ended.map Generation.cell ++ [(m.desk.groupFor k).2.cell]

theorem Kept.joined_cell (h : Kept r m) (k : RendezvousKey) :
    (m.joined k).cell = (m.desk.groupFor k).2.cell :=
  (h.groupFor k).1.cell.symm

theorem Kept.cellsOf_letIn (h : Kept r m) (k : RendezvousKey) (rank : Nat) (value : V) :
    (m.letIn k rank value).cellsOf k = m.enrolled k := by
  obtain ⟨hchron, -⟩ := h.noted_arrival k rank value (m.letIn k rank value).desk
    (m.letIn k rank value).due
  rw [h.joined_cell] at hchron
  have hall : ((m.letIn k rank value).chronicle k).all =
      (m.chronicle k).ended ++ [(m.joined k).add rank value] := by
    refine (congrArg Chronicle.all hchron).trans ?_
    split
    · rfl
    · exact List.append_nil _
  rw [cellsOf, hall, List.map_append, enrolled, ← h.joined_cell]
  rfl

/-- Either a group waits, and is one of the generations at its key already, or its cell is new. -/
theorem Kept.enrolled_cases (h : Kept r m) (k : RendezvousKey) :
    (∃ G, m.desk.group? k = some G ∧ m.enrolled k = m.cellsOf k) ∨
      m.desk.group? k = none ∧ m.enrolled k = m.cellsOf k ++ [m.desk.cells.size] := by
  cases hG : m.desk.group? k with
  | some G =>
    obtain ⟨g, hg, hmirror, -⟩ := h.waiting_of_some hG
    refine .inl ⟨G, rfl, ?_⟩
    rw [enrolled, Rendezvous.groupFor_of_some hG, cellsOf, Chronicle.all, hg, hmirror.cell,
      List.map_append]
    rfl
  | none =>
    refine .inr ⟨rfl, ?_⟩
    rw [enrolled, Rendezvous.groupFor_of_none hG, cellsOf, Chronicle.all, h.waiting_of_none hG,
      Option.toList_none, List.append_nil]
    rfl

theorem Kept.place_letIn (h : Kept r m) {c : Nat} (hc : c ≠ m.desk.cells.size) (rank : Nat)
    (value : V) : (m.letIn k rank value).place k c = m.place k c := by
  rw [place, place, h.cellsOf_letIn]
  rcases h.enrolled_cases k with ⟨G, -, hcells⟩ | ⟨-, hcells⟩
  · rw [hcells]
  · rw [hcells]
    simp only [List.idxOf?, List.findIdx?_append]
    cases (m.cellsOf k).findIdx? (· == c) with
    | some p => rfl
    | none => simp [hc.symm]

/-- Both meetings come to the same group, apart from its cell. -/
theorem Shadow.groupFor (h : Shadow k m m') (hk : Kept r m) (rank : Nat) (value : V) :
    ∃ p, (m.letIn k rank value).place k (m.desk.groupFor k).2.cell = some p ∧
      (m'.desk.groupFor k).2 = { (m.desk.groupFor k).2 with cell := p } ∧
      (m'.desk.groupFor k).1.cells.size = (m.enrolled k).length ∧
      (m'.desk.group? k).isNone = (m.desk.group? k).isNone ∧
      ∀ c d, (m.letIn k rank value).place k c = some d →
        m'.desk.result? d = m.desk.result? c := by
  rcases hk.enrolled_cases k with ⟨G, hG, hcells⟩ | ⟨hG, hcells⟩
  · have hplace : (m.letIn k rank value).place k = m.place k := by
      funext c
      rw [place, place, hk.cellsOf_letIn, hcells]
    obtain ⟨p, hp⟩ := hk.place_of_group hG
    have hG' : m'.desk.group? k = some { G with cell := p } := by
      rw [h.group, hG, Option.bind_some, hp]
      rfl
    rw [hplace, Rendezvous.groupFor_of_some hG, Rendezvous.groupFor_of_some hG', hG, hG', hcells]
    exact ⟨p, hp, rfl, h.size, rfl, h.result⟩
  · have hnew : m.desk.cells.size ∉ m.cellsOf k := fun hmem => by
      obtain ⟨p, hp⟩ := exists_place hmem
      exact Nat.lt_irrefl _ (hk.lt_of_place hp)
    have hG' : m'.desk.group? k = none := by rw [h.group, hG]; rfl
    have hplace := place_last ((hk.cellsOf_letIn k rank value).trans hcells) hnew
    rw [Rendezvous.groupFor_of_none hG, Rendezvous.groupFor_of_none hG', hG, hG', hcells]
    refine ⟨_, hplace, by simp [h.size, RendezvousGroup.empty], by simp [h.size], rfl,
      fun c d hc => ?_⟩
    by_cases hsize : c = m.desk.cells.size
    · subst hsize
      obtain rfl := Option.some.inj (hplace.symm.trans hc)
      simp [Rendezvous.result?, Cells.result?, ← h.size]
    · exact h.result c d ((hk.place_letIn hsize rank value).symm.trans hc)

theorem Shadow.enter (h : Shadow k m m') (hk : Kept r m) {rank : Nat} (hrank : rank < k.size)
    (hnew : rank ∉ (m.joined k).ranks) (value : V) :
    m'.desk.enter k rank value = (m'.desk.groupFor k).1.leave k
      ((m'.desk.groupFor k).2.add rank value) (m'.desk.group? k).isNone := by
  obtain ⟨p, -, hgroup, -⟩ := h.groupFor hk rank value
  rw [Rendezvous.enter, if_neg (Nat.not_le_of_lt hrank)]
  refine if_neg fun htaken => hnew (((hk.groupFor k).1.taken_iff rank).1 ?_)
  have hslots : (m'.desk.groupFor k).2.slots = (m.desk.groupFor k).2.slots := by rw [hgroup]
  exact hslots ▸ htaken

/-- An arrival at the key that is let in. -/
theorem Shadow.letIn (h : Shadow k m m') (hk : Kept r m) (rank : Nat) (value : V) :
    Shadow k (m.letIn k rank value) (m'.letIn k rank value) := by
  obtain ⟨p, hp, hgroup, hsize, hisNone, hresult⟩ := h.groupFor hk rank value
  have hadd : (m'.desk.groupFor k).2.add rank value =
      { (m.desk.groupFor k).2.add rank value with cell := p } := by
    rw [hgroup]
    rfl
  have hl := m.local_arrive k rank value (m.desk.groupFor k).2.cell
    ((m.desk.groupFor k).2.add rank value) (m.desk.group? k).isNone (m.letIn k rank value).due
  have hl' := m'.local_arrive k rank value (m'.desk.groupFor k).2.cell
    ((m'.desk.groupFor k).2.add rank value) (m'.desk.group? k).isNone (m'.letIn k rank value).due
  obtain ⟨-, hacc⟩ := hk.noted_arrival k rank value (m.letIn k rank value).desk
    (m.letIn k rank value).due
  refine ⟨hl'.name.trans (h.name.trans hl.name.symm),
    hl'.timeout.trans (h.timeout.trans hl.timeout.symm), ?_, ?_, ?_, fun c d hc => ?_, ?_, ?_⟩
  · rw [hk.cellsOf_letIn, ← hsize]
    exact congrArg Array.size (Rendezvous.cells_leave _ _ _ _)
  · show ((m'.desk.groupFor k).1.leave k _ _).1.group? k =
      (((m.desk.groupFor k).1.leave k _ _).1.group? k).bind _
    rw [Rendezvous.group?_leave, Rendezvous.group?_leave, hadd]
    dsimp only
    split
    · refine .trans ?_ (congrArg (Option.map fun c =>
        { (m.desk.groupFor k).2.add rank value with cell := c }) hp).symm
      rfl
    · rfl
  · show m'.due ++ ((m'.desk.groupFor k).1.leave k _ _).2.due =
      (m.due ++ ((m.desk.groupFor k).1.leave k _ _).2.due).filterMap _
    rw [List.filterMap_append, hadd, hisNone, Rendezvous.leave_withCell (m.desk.groupFor k).1,
      Entrance.due_withCell, ← List.filterMap_eq_map]
    congr 1
    · rw [h.due]
      refine List.filterMap_congr fun d hd => ?_
      rw [hk.place_letIn (Nat.ne_of_lt (hk.lt_of_due hd))]
    · refine List.filterMap_congr fun d hd => ?_
      have hcell := (Entrance.fst_of_mem_due hd).symm.trans (Rendezvous.answer_leave _ _ _ _)
      rw [Except.ok.inj hcell]
      exact (congrArg (Option.map fun c => (c, d.2)) hp).symm
  · exact (hl'.result d).trans ((hresult c d hc).trans (hl.result c).symm)
  · have hnoted : ∀ n : Meeting V κ, (n.letIn k rank value).accepted k =
        n.accepted k ++ [(rank, value, (n.desk.groupFor k).2.cell)] := fun n => by
      refine (accepted_noted _ _ _ n k).trans ?_
      rw [Happening.accepted?, if_pos rfl]
      rfl
    rw [hnoted, hnoted]
    refine List.rel_append (h.accepted.imp fun a a' ha => ?_) (.cons ⟨rfl, rfl, ?_⟩ .nil)
    · obtain ⟨hrank, hvalue, hplace⟩ := ha
      refine ⟨hrank, hvalue, .trans ?_ hplace⟩
      exact hk.place_letIn (Nat.ne_of_lt (hk.lt_of_place hplace)) rank value
    · rw [hgroup]
      exact hp
  · intro e he
    rcases List.mem_append.1 he with he | he
    · exact h.only e he
    · obtain rfl := List.mem_singleton.1 he
      exact ⟨rfl, _, rfl⟩

theorem Shadow.letIn_elsewhere (h : Shadow k m m') (hk : Kept r m) (hne : j ≠ k) (rank : Nat)
    (value : V) : Shadow k (m.letIn j rank value) m' := by
  have hl := m.local_arrive j rank value (m.desk.groupFor j).2.cell
    ((m.desk.groupFor j).2.add rank value) (m.desk.group? j).isNone (m.letIn j rank value).due
  refine h.elsewhere hl.name hl.timeout (hl.group k (Ne.symm hne)) (hl.chronicle k (Ne.symm hne))
    (hl.accepted k (Ne.symm hne)) (fun c _ _ => hl.result c) (filterMap_due_append fun d hd => ?_)
  have hcell := (Entrance.fst_of_mem_due hd).symm.trans (Rendezvous.answer_leave _ _ _ _)
  rw [Except.ok.inj hcell]
  exact hk.joined_cell j ▸ (hk.groupFor j).2.1.place_eq_none hne

/-- A rejected arrival, at whatever key, counts for nothing. -/
theorem Shadow.arrive (h : Shadow k m m') (hk : Kept r m) (j : RendezvousKey) (rank : Nat)
    (value : V) : Shadow k (m.step (.arrive j rank value))
      (m'.run (m.sift k (.arrive j rank value))) := by
  rcases hk.enter_cases j rank value with ⟨e, hent, -⟩ | ⟨hrank, hnew, hent⟩
  · have hstep : m.step (.arrive j rank value) =
        { m with log := m.log ++ [.arrived j rank value (.error e)] } := by
      rw [step, hent]
      simp [Entrance.due, Entrance.answer]
    rw [hstep, sift, hent]
    exact h.noted rfl rfl
  · have hsift : m.sift k (.arrive j rank value) =
        if j = k then [.arrive j rank value] else [] := by
      have hanswer := (m.desk.groupFor j).1.answer_leave j
        ((m.desk.groupFor j).2.add rank value) (m.desk.group? j).isNone
      rw [← hent] at hanswer
      rw [sift]
      cases hout : (m.desk.enter j rank value).2 with
      | rejected e => rw [hout] at hanswer; cases hanswer
      | waiting | filled => rfl
    rw [step_arrive hent, hsift]
    split
    · next hj =>
      subst hj
      show Shadow j _ (m'.step (.arrive j rank value))
      rw [step_arrive (h.enter hk hrank hnew value)]
      exact h.letIn hk rank value
    · next hj => exact h.letIn_elsewhere hk hj rank value

/-! ### Clocks -/

theorem Shadow.rung (h : Shadow k m m') (c : Nat) :
    Shadow k m { m' with log := m'.log ++ [.fired k c] } := by
  refine ⟨h.name, h.timeout, h.size, h.group, h.due, h.result, ?_, fun e he => ?_⟩
  · rw [accepted_noted]
    exact (List.append_nil (m'.accepted k)).symm ▸ h.accepted
  · rcases List.mem_append.1 he with he | he
    · exact h.only e he
    · obtain rfl := List.mem_singleton.1 he
      rfl

def expired (m : Meeting V κ) (k : RendezvousKey) (g : RendezvousGroup V) : Meeting V κ :=
  { desk := m.desk.forget k
    due := m.due ++ [(g.cell, .error (m.desk.timeoutError k g.arrived g.missing))]
    log := m.log ++ [.fired k g.cell] }

theorem step_fire {g : RendezvousGroup V} (hg : m.desk.group? k = some g) (hp : g.promised = true) :
    m.step (.fire k g.cell) = m.expired k g := by
  simp [step, Rendezvous.lapse, hg, hp, expired]

theorem Shadow.expired (h : Shadow k m m') (hk : Kept r m) {g : RendezvousGroup V}
    (hg : m.desk.group? k = some g) {p : Nat} (hp : m.place k g.cell = some p) :
    Shadow k (m.expired k g) (m'.expired k { g with cell := p }) := by
  obtain ⟨w, hw, hmirror, -⟩ := hk.waiting_of_some hg
  have hchron : ((m.expired k g).chronicle k).all.map Generation.cell =
      (m.chronicle k).all.map Generation.cell := by
    rw [Meeting.expired, chronicle_noted, Chronicle.observe, if_pos rfl, Chronicle.ring, hw,
      hmirror.cell]
    simp [Chronicle.all, hw]
  have hplace : (m.expired k g).place k = m.place k := by
    funext c
    rw [place, cellsOf, hchron]
    rfl
  refine ⟨h.name, h.timeout, ?_, ?_, ?_, fun c d hc => ?_, ?_, fun e he => ?_⟩
  · rw [cellsOf, hchron]
    exact h.size
  · simp [Meeting.expired]
  · rw [hplace]
    simp only [Meeting.expired, h.due, List.filterMap_append]
    simp [hp, Rendezvous.timeoutError, h.name, h.timeout, RendezvousGroup.missing]
  · rw [hplace] at hc
    exact h.result c d hc
  · rw [hplace, Meeting.expired, Meeting.expired, accepted_noted, accepted_noted]
    simpa [Happening.accepted?] using h.accepted
  · rcases List.mem_append.1 he with he | he
    · exact h.only e he
    · obtain rfl := List.mem_singleton.1 he
      rfl

theorem Shadow.expired_elsewhere (h : Shadow k m m') (hk : Kept r m) (hne : j ≠ k)
    {g : RendezvousGroup V} (hg : m.desk.group? j = some g) : Shadow k (m.expired j g) m' := by
  obtain ⟨w, hw, hmirror, -⟩ := hk.waiting_of_some hg
  refine h.elsewhere rfl rfl (Rendezvous.group?_forget_of_ne _ hne) ?_ ?_ (fun _ _ _ => rfl)
    (filterMap_due_append fun d hd => ?_)
  · rw [Meeting.expired, chronicle_noted, Chronicle.observe, if_neg hne]
  · rw [Meeting.expired, accepted_noted]
    simp [Happening.accepted?]
  · obtain rfl := List.mem_singleton.1 hd
    exact hmirror.cell ▸ (hk.free_waiting hw).place_eq_none hne

theorem Shadow.fire (h : Shadow k m m') (hk : Kept r m) (j : RendezvousKey) (c : Nat) :
    Shadow k (m.step (.fire j c)) (m'.run (m.sift k (.fire j c))) := by
  rw [sift]
  by_cases hcurrent : ∃ g, m.desk.group? j = some g ∧ g.cell = c
  · obtain ⟨g, hg, rfl⟩ := hcurrent
    obtain ⟨w, hw, hmirror, -⟩ := hk.waiting_of_some hg
    rw [step_fire hg hmirror.promised]
    split
    · next hj =>
      subst hj
      obtain ⟨p, hp⟩ := hk.place_of_group hg
      have hg' : m'.desk.group? j = some { g with cell := p } := by
        rw [h.group, hg, Option.bind_some, hp]
        rfl
      rw [hp]
      show Shadow j _ (m'.step (.fire j p))
      exact (step_fire hg' hmirror.promised).symm ▸ h.expired hk hg hp
    · next hj => exact h.expired_elsewhere hk hj hg
  · -- a clock that no group has any more is noted, and nothing else
    obtain ⟨hstep, hobserve⟩ := hk.fire_other (k := j) (c := c) fun w hw hc => by
      obtain ⟨g, hg, hmirror, -⟩ := hk.group_of_waiting hw
      exact hcurrent ⟨g, hg, hmirror.cell.trans hc⟩
    rw [hstep]
    have hnoted := h.noted (hobserve k) rfl
    split
    · next hj =>
      subst hj
      cases hp : m.place j c with
      | none => exact hnoted
      | some p =>
        have hlapse : m'.desk.lapse j p = (m'.desk, none) :=
          Rendezvous.lapse_of_not_current fun g' hg' hcell => by
            rw [h.group] at hg'
            obtain ⟨g, hg, hg'⟩ := Option.bind_eq_some_iff.1 hg'
            obtain ⟨q, hq, rfl⟩ := Option.map_eq_some_iff.1 hg'
            exact hcurrent ⟨g, hg, place_inj (hcell ▸ hq) hp⟩
        have hstep' : m'.step (.fire j p) = { m' with log := m'.log ++ [.fired j p] } := by
          simp [step, hlapse]
        show Shadow j _ (m'.step (.fire j p))
        exact hstep'.symm ▸ hnoted.rung p
    · exact hnoted

/-! ### Promises and waiters -/

section Lists

variable {α β : Type} {f : α → Option β} {l : List α} {i : Nat} {a : α} {b : β}

theorem filterMap_split (hi : l[i]? = some a) : l.filterMap f =
    (l.take i).filterMap f ++ ((f a).toList ++ (l.drop (i + 1)).filterMap f) := by
  obtain ⟨hlt, rfl⟩ := List.getElem?_eq_some_iff.1 hi
  conv_lhs => rw [← List.take_append_drop i l, ← List.getElem_cons_drop hlt]
  rw [List.filterMap_append, List.filterMap_cons]
  cases f l[i] <;> rfl

theorem filterMap_eraseIdx_of_none (hi : l[i]? = some a) (hf : f a = none) :
    (l.eraseIdx i).filterMap f = l.filterMap f := by
  rw [List.eraseIdx_eq_take_drop_succ, filterMap_split hi, hf, List.filterMap_append]
  rfl

theorem filterMap_eraseIdx_of_some (hi : l[i]? = some a) (hf : f a = some b) :
    let n := (l.take i).countP fun x => (f x).isSome
    (l.filterMap f)[n]? = some b ∧ (l.filterMap f).eraseIdx n = (l.eraseIdx i).filterMap f := by
  have hlen : (l.take i).countP (fun x => (f x).isSome) = ((l.take i).filterMap f).length :=
    List.length_filterMap_eq_countP.symm
  dsimp only
  rw [hlen, filterMap_split hi, hf, List.eraseIdx_append_of_length_le (Nat.le_refl _),
    List.eraseIdx_eq_take_drop_succ l, List.filterMap_append]
  simp

end Lists

theorem result?_settle (desk : Rendezvous V κ) {c : Nat} (hc : c < desk.cells.size)
    (x : Except Error (List V)) (d : Nat) : (desk.settle c x).1.result? d =
      if c = d then some ((desk.result? c).getD x) else desk.result? d := by
  split
  · next h =>
    subst h
    cases hr : desk.result? c with
    | none => exact Cells.result?_settle_self hc hr x
    | some y =>
      have hsettled : desk.cells.isSettled c = true := by
        rw [Cells.isSettled]
        exact Option.isSome_iff_exists.2 ⟨y, hr⟩
      show (desk.cells.settle c x).1.result? c = some y
      rw [Cells.settle_of_isSettled hsettled]
      exact hr
  · next h => exact Cells.result?_settle_of_ne h x

theorem Shadow.keep (h : Shadow k m m') (hk : Kept r m) (i : Nat) :
    Shadow k (m.step (.keep i)) (m'.run (m.sift k (.keep i))) := by
  rw [sift, step]
  cases hi : m.due[i]? with
  | none => exact h
  | some d =>
    obtain ⟨c, x⟩ := d
    have hlt := hk.lt_of_due (List.mem_of_getElem? hi)
    have hchron : ∀ n : Meeting V κ, ∀ desk due,
        ({ desk, due, log := n.log ++ [.resolved c x] } : Meeting V κ).chronicle k =
          n.chronicle k := fun n desk due => chronicle_noted _ _ _ _ _
    dsimp only
    cases hp : m.place k c with
    | none =>
      refine h.elsewhere rfl rfl rfl (hchron _ _ _) ?_ (fun q _ hq => ?_)
        (filterMap_eraseIdx_of_none hi (by rw [hp]; rfl))
      · rw [accepted_noted]
        simp [Happening.accepted?]
      · have hne : c ≠ q := fun hcq => by
          rw [hcq, hq] at hp
          cases hp
        exact (result?_settle _ hlt x q).trans (if_neg hne)
    | some p =>
      have hf : (m.place k c).map (fun q => (q, x)) = some (p, x) := by rw [hp]; rfl
      obtain ⟨hget, herase⟩ := @filterMap_eraseIdx_of_some _ _
        (fun d => (m.place k d.1).map fun q => (q, d.2)) m.due i (c, x) (p, x) hi hf
      rw [← h.due] at hget herase
      simp only [Option.isSome_map] at hget herase
      show Shadow k _ (m'.step (.keep _))
      rw [step, hget]
      have hplace := place_congr (hchron m (m.desk.settle c x).1 (m.due.eraseIdx i))
      refine ⟨h.name, h.timeout, ?_, ?_, ?_, fun d q hd => ?_, ?_, fun e he => ?_⟩
      · rw [cellsOf, hchron]
        exact (Cells.size_settle _ _ _).trans h.size
      · rw [hplace]
        exact h.group
      · rw [hplace]
        exact herase
      · rw [hplace] at hd
        refine (result?_settle _ (h.size ▸ place_lt hp) x q).trans
          (.trans ?_ (result?_settle _ hlt x d).symm)
        rw [h.result c p hp, h.result d q hd]
        exact if_congr ⟨fun hpq => place_inj hp (hpq ▸ hd),
          fun hcd : c = d => Option.some.inj (hp.symm.trans (hcd ▸ hd))⟩ rfl rfl
      · rw [hplace, accepted_noted, accepted_noted]
        simpa [Happening.accepted?] using h.accepted
      · rcases List.mem_append.1 he with he | he
        · exact h.only e he
        · obtain rfl := List.mem_singleton.1 he
          trivial

theorem Shadow.wait (h : Shadow k m m') (c : Nat) (w : κ) :
    Shadow k (m.step (.wait c w)) (m'.run (m.sift k (.wait c w))) := by
  have hleft : Shadow k (m.step (.wait c w)) m' :=
    h.elsewhere rfl rfl rfl rfl rfl (fun d _ _ => Cells.result?_register _ _ _ _) rfl
  rw [sift]
  cases m.place k c with
  | none => exact hleft
  | some p =>
    exact
      { hleft with
        size := (Cells.size_register _ _ _).trans hleft.size
        result := fun d q hq =>
          (Cells.result?_register _ _ _ _).trans (hleft.result d q hq) }

/-! ### Runs -/

theorem Shadow.step (h : Shadow k m m') (hk : Kept r m) (move : Move V κ) :
    Shadow k (m.step move) (m'.run (m.sift k move)) := by
  cases move with
  | arrive j rank value => exact h.arrive hk j rank value
  | fire j c => exact h.fire hk j c
  | keep i => exact h.keep hk i
  | wait c w => exact h.wait c w

theorem Shadow.run (h : Shadow k m m') (hk : Kept r m) (moves : List (Move V κ)) :
    Shadow k (m.run moves) (m'.run (siftAll k m moves)) := by
  induction moves generalizing m m' with
  | nil => exact h
  | cons move moves ih =>
    rw [siftAll, Meeting.run, Meeting.run, List.foldl_cons, List.foldl_append]
    exact ih (h.step hk move) (hk.step move)

theorem shadow_start (name : String) (timeout : Nat) (k : RendezvousKey) :
    Shadow k (start name timeout : Meeting V κ) (start name timeout) where
  name := rfl
  timeout := rfl
  size := rfl
  group := rfl
  due := rfl
  result _ _ hc := by cases hc
  accepted := .nil
  only _ he := by cases he

theorem Shadow.outcomes_eq (h : Shadow k m m') : m'.outcomes k = m.outcomes k := by
  symm
  rw [← List.forall₂_eq_eq_eq, outcomes, outcomes, List.forall₂_map_left_iff,
    List.forall₂_map_right_iff]
  exact h.accepted.imp fun a a' ⟨hrank, hvalue, hplace⟩ => by
    rw [hrank, hvalue, h.result _ _ hplace]

/-! ### Groups -/

theorem Kept.admits_iff (h : Kept r m) {rank : Nat} :
    m.desk.Admits k rank ↔ rank < k.size ∧ rank ∉ (m.joined k).ranks := by
  rw [Rendezvous.Admits, mem_joined_ranks]
  refine and_congr_right fun _ => ?_
  cases hG : m.desk.group? k with
  | none => simp [h.waiting_of_none hG]
  | some G =>
    obtain ⟨g, hg, hmirror, -⟩ := h.waiting_of_some hG
    simp [hg, hmirror.mem_ranks]

theorem Kept.consistent (h : Kept r m) (hkeys : m.desk.groups.keys.Nodup) : m.desk.Consistent where
  admitted k rank value hadmits := by
    obtain ⟨hrank, hnew⟩ := h.admits_iff.1 hadmits
    rcases h.enter_cases k rank value with ⟨e, -, -, hwhy⟩ | ⟨-, -, hent⟩
    · exact (hwhy.elim (Nat.not_le_of_lt hrank) hnew).elim
    · rw [hent]
      exact ⟨_, Rendezvous.answer_leave _ _ _ _⟩
  rejected k rank value hno := by
    rcases h.enter_cases k rank value with ⟨e, hent, hkind, -⟩ | ⟨hrank, hnew, -⟩
    · refine ⟨e, hkind, hent, ?_⟩
      rw [Rendezvous.arrive, hent]
      rfl
    · exact absurd (h.admits_iff.2 ⟨hrank, hnew⟩) hno
  slots k g hg := by
    obtain ⟨w, -, hmirror, -⟩ := h.waiting_of_some hg
    exact hmirror.size
  arrived k g hg := by
    obtain ⟨w, -, hmirror, hfew, -⟩ := h.waiting_of_some hg
    exact ⟨hmirror.countP_slots.symm, hmirror.arrived ▸ hfew⟩
  promised k g hg := by
    obtain ⟨w, hw, hmirror, -⟩ := h.waiting_of_some hg
    exact ⟨hmirror.promised, hmirror.cell ▸ (h.apart.waiting k w hw).2.2.1⟩
  pending := ⟨m.desk.groups.keys, hkeys, m.desk.groups.mem_keys_iff, (List.length_map _).symm⟩

theorem nodup_keys_step (h : m.desk.groups.keys.Nodup) (move : Move V κ) :
    (m.step move).desk.groups.keys.Nodup := by
  cases move with
  | arrive k rank value => exact m.desk.nodup_keys_enter h k rank value
  | fire k c => exact m.desk.nodup_keys_lapse h k c
  | keep i =>
    rw [step]
    split <;> exact h
  | wait c w => exact h

theorem nodup_keys_run (h : m.desk.groups.keys.Nodup) (moves : List (Move V κ)) :
    (m.run moves).desk.groups.keys.Nodup := by
  induction moves generalizing m with
  | nil => exact h
  | cons move moves ih => exact ih (nodup_keys_step h move)

/-- Keys do not interfere, and neither do arrivals that are turned away. Out of any run of a
rendezvous the moves that concern one key can be sifted: a run of these alone accepts every arrival,
lets no clock of another key run, and each of its arrivals comes to what it came to in the whole run.
At any time the groups of the rendezvous are in order. -/
theorem keys_isolated (name : String) (timeout : Nat) (moves : List (Move V κ)) :
    let m : Meeting V κ := start name timeout
    (m.run moves).desk.Consistent ∧ ∀ k,
      (m.run (siftAll k m moves)).outcomes k = (m.run moves).outcomes k ∧
        (m.run (siftAll k m moves)).OnlyAt k := by
  have hkept := kept_run (κ := κ) name timeout moves
  refine ⟨hkept.consistent (nodup_keys_run (m := start name timeout) List.nodup_nil moves), fun k => ?_⟩
  have hshadow := (shadow_start name timeout k).run (kept_start name timeout) moves
  exact ⟨hshadow.outcomes_eq, hshadow.only⟩

end Meeting

end OpFlow
