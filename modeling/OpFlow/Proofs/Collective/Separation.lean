import Mathlib.Data.List.Perm.Subperm
import OpFlow.Proofs.Collective.Generations

/-!
Generations never mix. The group kept under a key mirrors the generation that waits there, slot by
slot; every promise that is due or kept belongs to a generation that has ended. Both are kept by
every move, whatever the order of arrivals, clocks and promises.
-/
namespace OpFlow

variable {V κ : Type}

/-- A group holds exactly what a generation of `n` participants tells of. -/
structure Mirrors (n : Nat) (G : RendezvousGroup V) (g : Generation V) : Prop where
  cell : G.cell = g.cell
  promised : G.promised = true
  arrived : G.arrived = g.arrivals.length
  size : G.slots.length = n
  slot : ∀ rank value, G.slots[rank]? = some (some value) ↔ (rank, value) ∈ g.arrivals
  nodup : g.ranks.Nodup
  alive : g.timedOut = false

namespace Mirrors

variable {n : Nat} {G : RendezvousGroup V} {g : Generation V}

theorem empty (cell n : Nat) : Mirrors n (.empty cell n) ({ cell } : Generation V) where
  cell := rfl
  promised := rfl
  arrived := rfl
  size := by simp [RendezvousGroup.empty]
  slot := by simp [RendezvousGroup.empty, List.getElem?_replicate]
  nodup := by simp [Generation.ranks]
  alive := rfl

theorem mem_ranks (h : Mirrors n G g) {rank : Nat} :
    rank ∈ g.ranks ↔ ∃ value, G.slots[rank]? = some (some value) := by
  simp [Generation.ranks, h.slot]

theorem taken_iff (h : Mirrors n G g) (rank : Nat) :
    (G.slots[rank]?.join).isSome ↔ rank ∈ g.ranks := by
  rw [h.mem_ranks]
  cases G.slots[rank]? with
  | none => simp
  | some slot => cases slot <;> simp

theorem lt_of_mem_ranks (h : Mirrors n G g) {rank : Nat} (hr : rank ∈ g.ranks) : rank < n := by
  obtain ⟨value, hv⟩ := h.mem_ranks.mp hr
  exact h.size ▸ (List.getElem?_eq_some_iff.mp hv).1

theorem missing (h : Mirrors n G g) : G.missing = g.missing n := by
  simp only [RendezvousGroup.missing, Generation.missing, h.size]
  refine List.filter_congr fun rank _ => ?_
  rw [Bool.eq_iff_iff, Option.isNone_iff_eq_none, ← Option.not_isSome_iff_eq_none, h.taken_iff]
  simp

theorem add (h : Mirrors n G g) {rank : Nat} (hn : rank < n) (hr : rank ∉ g.ranks) (value : V) :
    Mirrors n (G.add rank value) (g.add rank value) where
  cell := h.cell
  promised := h.promised
  arrived := by simp [RendezvousGroup.add, Generation.add, h.arrived]
  size := by simp [RendezvousGroup.add, h.size]
  slot r v := by
    have hnew : ∀ w, (rank, w) ∉ g.arrivals := fun w hw => hr (List.mem_map_of_mem hw)
    have hlen : rank < G.slots.length := h.size ▸ hn
    simp only [RendezvousGroup.add, Generation.add, List.mem_append, List.mem_singleton,
      Prod.mk.injEq]
    by_cases hrank : r = rank
    · subst hrank
      simp [hlen, hnew, eq_comm]
    · simp [List.getElem?_set_ne (Ne.symm hrank), hrank, h.slot]
  nodup := by
    rw [Generation.ranks_add, List.nodup_append]
    exact ⟨h.nodup, by simp, fun a ha b hb => by
      rw [List.mem_singleton.mp hb]
      exact fun hab => hr (hab ▸ ha)⟩
  alive := h.alive

theorem ranks_perm (h : Mirrors n G g) (hfull : n ≤ g.arrivals.length) :
    g.ranks.Perm (List.range n) := by
  have hsub : g.ranks.Subperm (List.range n) :=
    List.subperm_of_subset h.nodup fun r hr => List.mem_range.mpr (h.lt_of_mem_ranks hr)
  exact hsub.perm_of_length_le (by simpa [Generation.ranks] using hfull)

/-- Draining a group that has filled up gives the value of each rank at its place. -/
theorem drained (h : Mirrors n G g) (hfull : n ≤ g.arrivals.length) :
    ∃ values, G.slots.filterMap id = values ∧ values.length = n ∧ g.arrivals.length = n ∧
      ∀ rank value, (rank, value) ∈ g.arrivals → values[rank]? = some value := by
  have hperm := h.ranks_perm hfull
  have hsome : ∀ slot ∈ G.slots, ∃ value, slot = some value := fun slot hslot => by
    obtain ⟨rank, hlt, rfl⟩ := List.mem_iff_getElem.mp hslot
    have hmem : rank ∈ g.ranks := hperm.mem_iff.mpr (List.mem_range.mpr (h.size ▸ hlt))
    obtain ⟨value, hv⟩ := h.mem_ranks.mp hmem
    exact ⟨value, (List.getElem?_eq_some_iff.mp hv).2⟩
  obtain ⟨values, hvalues⟩ : ∃ values : List V, G.slots = values.map some := by
    refine ⟨G.slots.filterMap id, ?_⟩
    have : (G.slots.filterMap id).map some = G.slots.filter Option.isSome := by
      rw [List.map_filterMap_some_eq_filter_map_isSome, List.map_id]
    rw [this, List.filter_eq_self.mpr fun slot hslot => by obtain ⟨v, rfl⟩ := hsome slot hslot; rfl]
  refine ⟨values, by simp [hvalues], ?_, ?_, fun rank value hmem => ?_⟩
  · rw [← h.size, hvalues, List.length_map]
  · simpa [Generation.ranks] using hperm.length_eq
  · have hslot := (h.slot rank value).mpr hmem
    simpa [hvalues] using hslot

end Mirrors

namespace Meeting

def settlements (m : Meeting V κ) (c : Nat) : List (Except Error (List V)) :=
  m.resolutions c ++ m.promises c

def Waits (k : RendezvousKey) (G : RendezvousGroup V) (g : Generation V) : Prop :=
  Mirrors k.size G g ∧ g.arrivals.length < k.size ∧ g.arrivals ≠ []

/-- What every move keeps. -/
structure Kept (r : Rendezvous V κ) (m : Meeting V κ) : Prop where
  name : m.desk.name = r.name
  timeout : m.desk.timeout = r.timeout
  split : ∀ k, (m.chronicle k).all.flatMap Generation.handed = m.accepted k
  group : ∀ k, Option.Rel (Waits k) (m.desk.group? k) (m.chronicle k).waiting
  nodup : ∀ k, ((m.chronicle k).all.map Generation.cell).Nodup
  own : ∀ j k, ∀ g ∈ (m.chronicle j).all, ∀ h ∈ (m.chronicle k).all, g.cell = h.cell → j = k
  old : ∀ k, ∀ g ∈ (m.chronicle k).all, g.cell < m.desk.cells.size
  ended : ∀ k, ∀ g ∈ (m.chronicle k).ended,
    (g.arrivals ≠ [] ∧ g.ranks.Nodup ∧ ∀ r ∈ g.ranks, r < k.size) ∧
      ∃ x, g.Outcome r k x ∧ m.settlements g.cell = [x]
  quiet : ∀ c, (∀ k, ∀ g ∈ (m.chronicle k).ended, g.cell ≠ c) → m.settlements c = []
  result : ∀ c, m.desk.result? c = (m.resolutions c).head?

/-- What a critical section at key `k` leaves alone. -/
structure Local (k : RendezvousKey) (m m' : Meeting V κ) : Prop where
  name : m'.desk.name = m.desk.name
  timeout : m'.desk.timeout = m.desk.timeout
  group : ∀ j, j ≠ k → m'.desk.group? j = m.desk.group? j
  chronicle : ∀ j, j ≠ k → m'.chronicle j = m.chronicle j
  accepted : ∀ j, j ≠ k → m'.accepted j = m.accepted j
  size : m.desk.cells.size ≤ m'.desk.cells.size
  resolutions : ∀ c, m'.resolutions c = m.resolutions c
  result : ∀ c, m'.desk.result? c = m.desk.result? c

/-- A cell that the generation waiting at `k` has, or that a new one there could get. -/
structure Free (k : RendezvousKey) (m : Meeting V κ) (c : Nat) : Prop where
  ended : ∀ g ∈ (m.chronicle k).ended, g.cell ≠ c
  others : ∀ j, j ≠ k → ∀ g ∈ (m.chronicle j).all, g.cell ≠ c

variable {r : Rendezvous V κ} {m m' : Meeting V κ} {k : RendezvousKey}

theorem Kept.free_waiting (h : Kept r m) {g : Generation V}
    (hg : (m.chronicle k).waiting = some g) : Free k m g.cell where
  ended e he hcell := by
    have hnodup := h.nodup k
    rw [Chronicle.all, hg, Option.toList_some, List.map_append, List.nodup_append] at hnodup
    exact hnodup.2.2 _ (List.mem_map_of_mem he) _ (by simp) hcell
  others j hj e he hcell := hj (h.own j k e he g (by simp [Chronicle.all, hg]) hcell)

theorem Kept.free_fresh (h : Kept r m) (k : RendezvousKey) : Free k m m.desk.cells.size where
  ended e he := Nat.ne_of_lt (h.old k e (List.mem_append_left _ he))
  others j _ e he := Nat.ne_of_lt (h.old j e he)

/-- When the generations at `k` become those that had ended and `g`, the accepted arrivals still
split into generations, and the cells stay known. -/
theorem Kept.split_old (h : Kept r m) (hl : Local k m m') {g : Generation V}
    (hcell : g.cell < m'.desk.cells.size)
    (hall : (m'.chronicle k).all = (m.chronicle k).ended ++ [g])
    (hsplit : m'.accepted k = (m.chronicle k).ended.flatMap Generation.handed ++ g.handed) :
    (∀ j, (m'.chronicle j).all.flatMap Generation.handed = m'.accepted j) ∧
      ∀ j, ∀ a ∈ (m'.chronicle j).all, a.cell < m'.desk.cells.size := by
  constructor
  · intro j
    by_cases hj : j = k
    · rw [hj, hall, hsplit]; simp
    · rw [hl.chronicle j hj, hl.accepted j hj, h.split]
  · intro j a ha
    by_cases hj : j = k
    · rw [hj, hall, List.mem_append, List.mem_singleton] at ha
      rcases ha with ha | rfl
      · exact Nat.lt_of_lt_of_le (h.old k a (List.mem_append_left _ ha)) hl.size
      · exact hcell
    · exact Nat.lt_of_lt_of_le (h.old j a (hl.chronicle j hj ▸ ha)) hl.size

/-- When moreover the cell of `g` is free, no two generations share a cell. -/
theorem Kept.cells_apart (h : Kept r m) (hl : Local k m m') {g : Generation V}
    (hfree : Free k m g.cell) (hall : (m'.chronicle k).all = (m.chronicle k).ended ++ [g]) :
    (∀ j, ((m'.chronicle j).all.map Generation.cell).Nodup) ∧
      ∀ i j, ∀ a ∈ (m'.chronicle i).all, ∀ b ∈ (m'.chronicle j).all, a.cell = b.cell → i = j := by
  -- a generation of `m'` is the changed one, or one of `m` at the same key
  have hold : ∀ j, ∀ a ∈ (m'.chronicle j).all, j = k ∧ a = g ∨ a ∈ (m.chronicle j).all := by
    intro j a ha
    by_cases hj : j = k
    · subst hj
      rw [hall, List.mem_append, List.mem_singleton] at ha
      rcases ha with ha | ha
      · exact .inr (List.mem_append_left _ ha)
      · exact .inl ⟨rfl, ha⟩
    · exact .inr (hl.chronicle j hj ▸ ha)
  have hnew : ∀ j, ∀ a ∈ (m'.chronicle j).all, a.cell = g.cell → j = k := by
    intro j a ha hcell
    by_contra hj
    exact hfree.others j hj a (hl.chronicle j hj ▸ ha) hcell
  constructor
  · intro j
    by_cases hj : j = k
    · subst hj
      have hnodup := h.nodup j
      rw [Chronicle.all, List.map_append, List.nodup_append] at hnodup
      rw [hall, List.map_append, List.nodup_append]
      refine ⟨hnodup.1, by simp, fun c hc d hd => ?_⟩
      obtain ⟨a, ha, rfl⟩ := List.mem_map.mp hc
      rw [List.map_singleton, List.mem_singleton] at hd
      exact hd ▸ hfree.ended a ha
    · rw [hl.chronicle j hj]
      exact h.nodup j
  · intro i j a ha b hb hcell
    rcases hold i a ha with ⟨rfl, rfl⟩ | ha'
    · exact (hnew j b hb hcell.symm).symm
    · rcases hold j b hb with ⟨rfl, rfl⟩ | hb'
      · exact hnew i a ha hcell
      · exact h.own i j a ha' b hb' hcell

/-- A critical section after which the generation at its key waits. -/
theorem Kept.wait (h : Kept r m) (hl : Local k m m') {g : Generation V}
    (hfree : Free k m g.cell) (hcell : g.cell < m'.desk.cells.size)
    (hk : m'.chronicle k = { m.chronicle k with waiting := some g })
    (hgroup : Option.Rel (Waits k) (m'.desk.group? k) (some g))
    (hsplit : m'.accepted k = (m.chronicle k).ended.flatMap Generation.handed ++ g.handed)
    (hdue : ∀ c, m'.promises c = m.promises c) : Kept r m' := by
  have hall : (m'.chronicle k).all = (m.chronicle k).ended ++ [g] := by rw [hk]; rfl
  have hended : ∀ j, (m'.chronicle j).ended = (m.chronicle j).ended := fun j => by
    by_cases hj : j = k
    · rw [hj, hk]
    · rw [hl.chronicle j hj]
  have hset : ∀ c, m'.settlements c = m.settlements c := fun c => by
    simp only [settlements, hl.resolutions, hdue]
  obtain ⟨hnodup, hown⟩ := h.cells_apart hl hfree hall
  obtain ⟨hsplit, hold⟩ := h.split_old hl hcell hall hsplit
  refine
    { name := hl.name.trans h.name, timeout := hl.timeout.trans h.timeout, split := hsplit
      nodup := hnodup, own := hown, old := hold, group := fun j => ?_
      ended := fun j a ha => ?_, quiet := fun c hc => ?_
      result := fun c => by rw [hl.result, hl.resolutions, h.result] }
  · by_cases hj : j = k
    · subst hj; rw [hk]; exact hgroup
    · rw [hl.chronicle j hj, hl.group j hj]; exact h.group j
  · rw [hended] at ha
    simpa only [hset] using h.ended j a ha
  · rw [hset]
    exact h.quiet c (by simpa only [hended] using hc)

/-- A critical section that ends the generation at its key, and takes its promise. -/
theorem Kept.finish (h : Kept r m) (hl : Local k m m') {g : Generation V}
    (hfree : Free k m g.cell) (hcell : g.cell < m'.desk.cells.size)
    (hk : m'.chronicle k = { ended := (m.chronicle k).ended ++ [g], waiting := none })
    (hgroup : m'.desk.group? k = none)
    (hsplit : m'.accepted k = (m.chronicle k).ended.flatMap Generation.handed ++ g.handed)
    (hranks : g.arrivals ≠ [] ∧ g.ranks.Nodup ∧ ∀ r ∈ g.ranks, r < k.size)
    {x : Except Error (List V)} (hx : g.Outcome r k x)
    (hdue : ∀ c, m'.promises c = m.promises c ++ if g.cell = c then [x] else []) :
    Kept r m' := by
  have hall : (m'.chronicle k).all = (m.chronicle k).ended ++ [g] := by
    rw [hk]; exact List.append_nil _
  have hset : ∀ c, m'.settlements c = m.settlements c ++ if g.cell = c then [x] else [] := by
    intro c
    simp only [settlements, hl.resolutions, hdue, List.append_assoc]
  have hnever : m.settlements g.cell = [] := by
    refine h.quiet g.cell fun j a ha => ?_
    by_cases hj : j = k
    · exact hfree.ended a (hj ▸ ha)
    · exact hfree.others j hj a (List.mem_append_left _ ha)
  have hother : ∀ j, ∀ a ∈ (m.chronicle j).ended, g.cell ≠ a.cell := by
    intro j a ha
    by_cases hj : j = k
    · exact (hfree.ended a (hj ▸ ha)).symm
    · exact (hfree.others j hj a (List.mem_append_left _ ha)).symm
  obtain ⟨hnodup, hown⟩ := h.cells_apart hl hfree hall
  obtain ⟨hsplit, hold⟩ := h.split_old hl hcell hall hsplit
  refine
    { name := hl.name.trans h.name, timeout := hl.timeout.trans h.timeout, split := hsplit
      nodup := hnodup, own := hown, old := hold, group := fun j => ?_
      ended := fun j a ha => ?_, quiet := fun c hc => ?_
      result := fun c => by rw [hl.result, hl.resolutions, h.result] }
  · by_cases hj : j = k
    · subst hj; rw [hk, hgroup]; exact .none
    · rw [hl.chronicle j hj, hl.group j hj]; exact h.group j
  · have hbefore : a ∈ (m.chronicle j).ended ∨ j = k ∧ a = g := by
      by_cases hj : j = k
      · subst hj
        rw [hk, List.mem_append, List.mem_singleton] at ha
        exact ha.imp_right fun ha => ⟨rfl, ha⟩
      · exact .inl (hl.chronicle j hj ▸ ha)
    rcases hbefore with ha | ⟨rfl, rfl⟩
    · simpa [hset, hother j a ha] using h.ended j a ha
    · exact ⟨hranks, x, hx, by simp [hset, hnever]⟩
  · have hne : g.cell ≠ c := hc k g (by rw [hk]; simp)
    rw [hset, if_neg hne, List.append_nil]
    refine h.quiet c fun j a ha => hc j a ?_
    by_cases hj : j = k
    · rw [hj, hk]; exact List.mem_append_left _ (hj ▸ ha)
    · rw [hl.chronicle j hj]; exact ha

/-! ### What one happening adds to the log -/

section Noted

variable (desk : Rendezvous V κ) (due : List (Nat × Except Error (List V))) (e : Happening V)

theorem chronicle_noted (m : Meeting V κ) (k : RendezvousKey) :
    ({ desk, due, log := m.log ++ [e] } : Meeting V κ).chronicle k = (m.chronicle k).observe k e :=
  Chronicle.ofLog_append k m.log e

theorem accepted_noted (m : Meeting V κ) (k : RendezvousKey) :
    ({ desk, due, log := m.log ++ [e] } : Meeting V κ).accepted k =
      m.accepted k ++ (e.accepted? k).toList := by
  cases he : e.accepted? k <;> simp [accepted, List.filterMap_append, he]

theorem resolutions_noted (m : Meeting V κ) (c : Nat) :
    ({ desk, due, log := m.log ++ [e] } : Meeting V κ).resolutions c =
      m.resolutions c ++ (e.result? c).toList := by
  cases he : e.result? c <;> simp [resolutions, List.filterMap_append, he]

end Noted

theorem promises_append (desk : Rendezvous V κ) (log : List (Happening V)) (d : Nat)
    (x : Except Error (List V)) (c : Nat) :
    ({ desk, due := m.due ++ [(d, x)], log } : Meeting V κ).promises c =
      m.promises c ++ if d = c then [x] else [] := by
  by_cases hd : d = c <;> simp [promises, List.filterMap_append, hd]

/-- A happening that no chronicle takes note of. -/
theorem Kept.noted (h : Kept r m) {e : Happening V}
    (hobserve : ∀ j, (m.chronicle j).observe j e = m.chronicle j)
    (haccepted : ∀ j, e.accepted? j = none) (hresult : ∀ c, e.result? c = none) :
    Kept r { m with log := m.log ++ [e] } := by
  have hchron : ∀ j, ({ m with log := m.log ++ [e] } : Meeting V κ).chronicle j = m.chronicle j :=
    fun j => (chronicle_noted _ _ e m j).trans (hobserve j)
  have hacc : ∀ j, ({ m with log := m.log ++ [e] } : Meeting V κ).accepted j = m.accepted j :=
    fun j => by rw [accepted_noted, haccepted]; simp
  have hres : ∀ c, ({ m with log := m.log ++ [e] } : Meeting V κ).resolutions c = m.resolutions c :=
    fun c => by rw [resolutions_noted, hresult]; simp
  have hset : ∀ c, ({ m with log := m.log ++ [e] } : Meeting V κ).settlements c = m.settlements c :=
    fun c => by simp only [settlements, hres]; rfl
  exact
    { name := h.name, timeout := h.timeout
      split := fun j => by rw [hchron, hacc, h.split]
      group := fun j => by rw [hchron]; exact h.group j
      nodup := fun j => by rw [hchron]; exact h.nodup j
      own := fun i j => by rw [hchron, hchron]; exact h.own i j
      old := fun j => by rw [hchron]; exact h.old j
      ended := fun j => by simpa only [hchron, hset] using h.ended j
      quiet := fun c => by simpa only [hchron, hset] using h.quiet c
      result := fun c => by rw [hres]; exact h.result c }

/-! ### The moves -/

theorem Kept.waiting_of_none (h : Kept r m) (hk : m.desk.group? k = none) :
    (m.chronicle k).waiting = none := by
  have hrel := h.group k
  rw [hk] at hrel
  cases hw : (m.chronicle k).waiting with
  | none => rfl
  | some _ => rw [hw] at hrel; nomatch hrel

theorem Kept.waiting_of_some (h : Kept r m) {G : RendezvousGroup V}
    (hk : m.desk.group? k = some G) : ∃ g, (m.chronicle k).waiting = some g ∧ Waits k G g := by
  have hrel := h.group k
  rw [hk] at hrel
  cases hw : (m.chronicle k).waiting with
  | none => rw [hw] at hrel; nomatch hrel
  | some g =>
    rw [hw] at hrel
    cases hrel with
    | some hG => exact ⟨g, rfl, hG⟩

theorem Kept.group_of_waiting (h : Kept r m) {g : Generation V}
    (hk : (m.chronicle k).waiting = some g) : ∃ G, m.desk.group? k = some G ∧ Waits k G g := by
  cases hG : m.desk.group? k with
  | none => rw [h.waiting_of_none hG] at hk; nomatch hk
  | some G =>
    obtain ⟨g', hg', hwaits⟩ := h.waiting_of_some hG
    rw [hk] at hg'
    exact ⟨G, rfl, Option.some.inj hg' ▸ hwaits⟩

def joined (m : Meeting V κ) (k : RendezvousKey) : Generation V :=
  (m.chronicle k).waiting.getD { cell := (m.desk.groupFor k).2.cell }

/-- The group an arrival comes to mirrors the generation it joins or begins. -/
theorem Kept.groupFor (h : Kept r m) (k : RendezvousKey) :
    Mirrors k.size (m.desk.groupFor k).2 (m.joined k) ∧ Free k m (m.joined k).cell ∧
      (m.joined k).cell < (m.desk.groupFor k).1.cells.size ∧
      m.accepted k = (m.chronicle k).ended.flatMap Generation.handed ++ (m.joined k).handed := by
  have hsplit := h.split k
  rcases hgroup : m.desk.group? k with _ | G
  · have hwait := h.waiting_of_none hgroup
    have hg : m.joined k = { cell := m.desk.cells.size } := by
      rw [joined, hwait, Rendezvous.groupFor_of_none hgroup]; rfl
    simp only [Chronicle.all, hwait, Option.toList_none, List.append_nil] at hsplit
    rw [hg, Rendezvous.groupFor_of_none hgroup]
    exact ⟨.empty _ _, h.free_fresh k, by simp, by simp [Generation.handed, hsplit]⟩
  · obtain ⟨g, hwait, hG⟩ := h.waiting_of_some hgroup
    have hg : m.joined k = g := by rw [joined, hwait, Option.getD_some]
    rw [hg, Rendezvous.groupFor_of_some hgroup]
    refine ⟨hG.1, h.free_waiting hwait, h.old k g (by simp [Chronicle.all, hwait]), ?_⟩
    rw [← hsplit, Chronicle.all, hwait]
    simp

theorem Kept.mem_joined_ranks (rank : Nat) :
    rank ∈ (m.joined k).ranks ↔ ∃ g ∈ (m.chronicle k).waiting, rank ∈ g.ranks := by
  rw [joined]
  cases (m.chronicle k).waiting <;> simp [Generation.ranks]

/-- An arrival is turned away, and nothing changes, or it is let in: its rank is one that the
generation lacks, and it leaves the group with its contribution added. -/
theorem Kept.enter_cases (h : Kept r m) (k : RendezvousKey) (rank : Nat) (value : V) :
    (∃ e : Error, m.desk.enter k rank value = (m.desk, .rejected e) ∧ e.kind = .invalidArgument ∧
      (k.size ≤ rank ∨ rank ∈ (m.joined k).ranks)) ∨
    rank < k.size ∧ rank ∉ (m.joined k).ranks ∧
      m.desk.enter k rank value = (m.desk.groupFor k).1.leave k
        ((m.desk.groupFor k).2.add rank value) (m.desk.group? k).isNone := by
  obtain ⟨hmirror, -⟩ := h.groupFor k
  by_cases hrank : k.size ≤ rank
  · exact .inl ⟨.invalidArgument ("rank " ++ toString rank ++ " out of range for " ++
      toString k.size ++ " participants in " ++ k.display), if_pos hrank, rfl, .inl hrank⟩
  · by_cases htaken : rank ∈ (m.joined k).ranks
    · have henter : m.desk.enter k rank value = ((m.desk.groupFor k).1, .rejected
          (.invalidArgument ("rank " ++ toString rank ++ " arrived twice at " ++ k.display))) := by
        rw [Rendezvous.enter, if_neg hrank]
        exact if_pos ((hmirror.taken_iff rank).mpr htaken)
      have hsame := Rendezvous.enter_rejected henter
      exact .inl ⟨_, henter.trans (by rw [hsame]), rfl, .inr htaken⟩
    · refine .inr ⟨Nat.lt_of_not_le hrank, htaken, ?_⟩
      rw [Rendezvous.enter, if_neg hrank]
      exact if_neg fun hsome => htaken ((hmirror.taken_iff rank).mp hsome)

/-- What leaving a group at `k` does apart from the group itself. -/
theorem local_arrive (m : Meeting V κ) (k : RendezvousKey) (rank : Nat) (value : V) (c : Nat)
    (G : RendezvousGroup V) (isNew : Bool) (due : List (Nat × Except Error (List V))) :
    Local k m
      { desk := ((m.desk.groupFor k).1.leave k G isNew).1, due
        log := m.log ++ [.arrived k rank value (.ok c)] } := by
  have hdesk : ∃ groups, ((m.desk.groupFor k).1.leave k G isNew).1 =
        { (m.desk.groupFor k).1 with groups } ∧
      ∀ j, j ≠ k → groups.get? j = m.desk.group? j := by
    have hgroups : (m.desk.groupFor k).1.groups = m.desk.groups := by
      rcases m.desk.groupFor_fst k with h | h <;> rw [h]
    unfold Rendezvous.leave
    split
    · exact ⟨_, rfl, fun j hj => by rw [Assoc.get?_set_of_ne _ (Ne.symm hj), hgroups]; rfl⟩
    · exact ⟨_, rfl, fun j hj => by rw [Assoc.get?_erase_of_ne _ (Ne.symm hj), hgroups]; rfl⟩
  obtain ⟨groups, hdesk, hothers⟩ := hdesk
  rw [hdesk]
  exact
    { name := by rcases m.desk.groupFor_fst k with h | h <;> rw [h]
      timeout := by rcases m.desk.groupFor_fst k with h | h <;> rw [h]
      group := hothers
      chronicle := fun j hj => by
        rw [chronicle_noted, Chronicle.observe, if_neg (Ne.symm hj)]
      accepted := fun j hj => by
        rw [accepted_noted, Happening.accepted?, if_neg (Ne.symm hj)]; simp
      size := by rcases m.desk.groupFor_fst k with h | h <;> simp [h]
      resolutions := fun d => by rw [resolutions_noted]; simp [Happening.result?]
      result := fun d => by
        rcases m.desk.groupFor_fst k with h | h <;> simp [Rendezvous.result?, h] }

/-- The log of an arrival that is let in: it joins its generation, and is handed its cell. -/
theorem Kept.noted_arrival (h : Kept r m) (k : RendezvousKey) (rank : Nat) (value : V)
    (desk : Rendezvous V κ) (due : List (Nat × Except Error (List V))) :
    let m' : Meeting V κ :=
      { desk, due, log := m.log ++ [.arrived k rank value (.ok (m.joined k).cell)] }
    let g := (m.joined k).add rank value
    m'.chronicle k = (if g.arrivals.length < k.size then { m.chronicle k with waiting := some g }
      else { ended := (m.chronicle k).ended ++ [g], waiting := none }) ∧
    m'.accepted k = (m.chronicle k).ended.flatMap Generation.handed ++ g.handed := by
  obtain ⟨-, -, -, hsplit⟩ := h.groupFor k
  have hgetD : (m.chronicle k).waiting.getD { cell := (m.joined k).cell } = m.joined k := by
    rw [joined]; cases (m.chronicle k).waiting <;> rfl
  constructor
  · rw [chronicle_noted, Chronicle.observe, if_pos rfl, Chronicle.join, hgetD]
  · rw [accepted_noted, Happening.accepted?, if_pos rfl, hsplit]
    simp

/-- An arrival that is let in and leaves others missing. -/
theorem Kept.arrive_early (h : Kept r m) {rank : Nat} (value : V) (hrank : rank < k.size)
    (hnew : rank ∉ (m.joined k).ranks)
    (hent : m.desk.enter k rank value = (m.desk.groupFor k).1.leave k
      ((m.desk.groupFor k).2.add rank value) (m.desk.group? k).isNone)
    (hfew : ((m.joined k).add rank value).arrivals.length < k.size) :
    Kept r (m.step (.arrive k rank value)) := by
  obtain ⟨hmirror, hfree, hcell, -⟩ := h.groupFor k
  have hadd := hmirror.add hrank hnew value
  have hleave := hent
  rw [Rendezvous.leave, if_pos (hadd.arrived ▸ hfew)] at hleave
  have hstep : m.step (.arrive k rank value) =
      { desk := ((m.desk.groupFor k).1.leave k ((m.desk.groupFor k).2.add rank value)
          (m.desk.group? k).isNone).1
        due := m.due, log := m.log ++ [.arrived k rank value (.ok (m.joined k).cell)] } := by
    rw [← hent, step, hleave]
    simp [Entrance.due, Entrance.answer, hadd.cell, Generation.add]
  obtain ⟨hchron, hacc⟩ := h.noted_arrival k rank value
    ((m.desk.groupFor k).1.leave k ((m.desk.groupFor k).2.add rank value)
      (m.desk.group? k).isNone).1 m.due
  rw [hstep]
  refine h.wait (m.local_arrive k rank value _ _ _ _) (g := (m.joined k).add rank value) hfree
    ?_ ?_ ?_ hacc fun _ => rfl
  · rw [← hent, hleave]; exact hcell
  · rw [hchron, if_pos hfew]
  · rw [← hent, hleave, Rendezvous.group?_store_self]
    exact .some ⟨hadd, hfew, by simp [Generation.add]⟩

/-- An arrival that is let in as the last one of its generation. -/
theorem Kept.arrive_last (h : Kept r m) {rank : Nat} (value : V) (hrank : rank < k.size)
    (hnew : rank ∉ (m.joined k).ranks)
    (hent : m.desk.enter k rank value = (m.desk.groupFor k).1.leave k
      ((m.desk.groupFor k).2.add rank value) (m.desk.group? k).isNone)
    (hfull : ¬ ((m.joined k).add rank value).arrivals.length < k.size) :
    Kept r (m.step (.arrive k rank value)) := by
  obtain ⟨hmirror, hfree, hcell, -⟩ := h.groupFor k
  have hadd := hmirror.add hrank hnew value
  obtain ⟨values, hvalues, hlen, hall, hranked⟩ := hadd.drained (Nat.le_of_not_lt hfull)
  have hleave := hent
  rw [Rendezvous.leave, if_neg (hadd.arrived ▸ hfull), hvalues, hadd.promised, hadd.cell] at hleave
  have hstep : m.step (.arrive k rank value) =
      { desk := ((m.desk.groupFor k).1.leave k ((m.desk.groupFor k).2.add rank value)
          (m.desk.group? k).isNone).1
        due := m.due ++ [((m.joined k).cell, .ok values)]
        log := m.log ++ [.arrived k rank value (.ok (m.joined k).cell)] } := by
    rw [← hent, step, hleave]
    rfl
  obtain ⟨hchron, hacc⟩ := h.noted_arrival k rank value
    ((m.desk.groupFor k).1.leave k ((m.desk.groupFor k).2.add rank value)
      (m.desk.group? k).isNone).1 (m.due ++ [((m.joined k).cell, .ok values)])
  rw [hstep]
  refine h.finish (m.local_arrive k rank value _ _ _ _) (g := (m.joined k).add rank value) hfree
    ?_ ?_ ?_ hacc ⟨by simp [Generation.add], hadd.nodup, fun _ => hadd.lt_of_mem_ranks⟩
    (.full hadd.alive hall hlen hranked) fun c => promises_append _ _ _ _ c
  · rw [← hent, hleave]; exact hcell
  · rw [hchron, if_neg hfull]
  · rw [← hent, hleave, Rendezvous.group?_forget_self]

theorem Kept.arrive (h : Kept r m) (k : RendezvousKey) (rank : Nat) (value : V) :
    Kept r (m.step (.arrive k rank value)) := by
  rcases h.enter_cases k rank value with ⟨e, hent, -⟩ | ⟨hrank, hnew, hent⟩
  · have hstep : m.step (.arrive k rank value) =
        { m with log := m.log ++ [.arrived k rank value (.error e)] } := by
      simp [step, hent, Entrance.due, Entrance.answer]
    rw [hstep]
    exact h.noted (fun _ => rfl) (fun _ => rfl) (fun _ => rfl)
  · by_cases hfew : ((m.joined k).add rank value).arrivals.length < k.size
    · exact h.arrive_early value hrank hnew hent hfew
    · exact h.arrive_last value hrank hnew hent hfew

/-- The clock of a group other than the one that waits is noted, and nothing else. -/
theorem Kept.fire_other (h : Kept r m) {c : Nat}
    (hother : ∀ g, (m.chronicle k).waiting = some g → g.cell ≠ c) :
    m.step (.fire k c) = { m with log := m.log ++ [.fired k c] } ∧
      ∀ j, (m.chronicle j).observe j (.fired k c) = m.chronicle j := by
  constructor
  · have hgroup : ∀ G, m.desk.group? k = some G → G.cell ≠ c := fun G hG hc => by
      obtain ⟨g, hg, hmirror, -⟩ := h.waiting_of_some hG
      exact hother g hg (hmirror.cell ▸ hc)
    simp [step, Rendezvous.lapse_of_not_current hgroup]
  · intro j
    rw [Chronicle.observe]
    split
    · next hj =>
      subst hj
      rw [Chronicle.ring]
      split
      · next g hg => exact if_neg (hother g hg)
      · rfl
    · rfl

/-- A clock keeps the generations apart. -/
theorem Kept.fire (h : Kept r m) (k : RendezvousKey) (c : Nat) : Kept r (m.step (.fire k c)) := by
  by_cases hcurrent : ∃ g, (m.chronicle k).waiting = some g ∧ g.cell = c
  · obtain ⟨g, hg, rfl⟩ := hcurrent
    obtain ⟨G, hG, hmirror, hfew, hne⟩ := h.group_of_waiting hg
    have hlapse : m.desk.lapse k g.cell = (m.desk.forget k,
        some (r.timeoutError k g.arrivals.length (g.missing k.size))) := by
      simp [Rendezvous.lapse, hG, hmirror.cell, hmirror.promised, hmirror.arrived, hmirror.missing,
        Rendezvous.timeoutError, h.name, h.timeout]
    have hstep : m.step (.fire k g.cell) = { desk := m.desk.forget k
                                             due := m.due ++ [(g.cell, .error
                                              (r.timeoutError k g.arrivals.length (g.missing k.size)))]
                                             log := m.log ++ [.fired k g.cell] } := by
      simp [step, hlapse]
    have hsplit := h.split k
    rw [Chronicle.all, hg, Option.toList_some, List.flatMap_append] at hsplit
    rw [hstep]
    refine h.finish ?_ (g := { g with timedOut := true }) (h.free_waiting (g := g) hg) ?_ ?_ ?_ ?_
      ⟨hne, hmirror.nodup, fun _ => hmirror.lt_of_mem_ranks⟩ (.late rfl hfew)
      fun c => promises_append _ _ _ _ c
    · exact
        { name := rfl, timeout := rfl, size := Nat.le_refl _
          group := fun j hj => Rendezvous.group?_forget_of_ne _ (Ne.symm hj)
          chronicle := fun j hj => by
            rw [chronicle_noted, Chronicle.observe, if_neg (Ne.symm hj)]
          accepted := fun j _ => by rw [accepted_noted]; simp [Happening.accepted?]
          resolutions := fun d => by rw [resolutions_noted]; simp [Happening.result?]
          result := fun _ => rfl }
    · exact h.old k g (by simp [Chronicle.all, hg])
    · rw [chronicle_noted, Chronicle.observe, if_pos rfl, Chronicle.ring, hg]
      simp
    · exact Rendezvous.group?_forget_self _ _
    · rw [accepted_noted, ← hsplit]
      simp [Happening.accepted?, Generation.handed]
  · obtain ⟨hstep, hobserve⟩ := h.fire_other (k := k) fun g hg hc => hcurrent ⟨g, hg, hc⟩
    rw [hstep]
    exact h.noted hobserve (fun _ => rfl) (fun _ => rfl)

theorem settlements_keep {i c : Nat} {x : Except Error (List V)} (hi : m.due[i]? = some (c, x))
    (d : Nat) : ((m.step (.keep i)).settlements d).Perm (m.settlements d) := by
  obtain ⟨hlt, hget⟩ := List.getElem?_eq_some_iff.mp hi
  have hdue := (List.getElem_cons_eraseIdx_perm hlt).filterMap
    fun due => if due.1 = d then some due.2 else none
  simp only [settlements, step, hi, resolutions_noted, List.append_assoc]
  refine List.Perm.append_left _ ?_
  rw [hget, List.filterMap_cons] at hdue
  by_cases hd : c = d <;> simpa [promises, Happening.result?, hd] using hdue

/-- Keeping a promise keeps the generations apart. -/
theorem Kept.keep (h : Kept r m) (i : Nat) : Kept r (m.step (.keep i)) := by
  rcases hi : m.due[i]? with _ | ⟨c, x⟩
  · simpa [step, hi] using h
  have hstep : m.step (.keep i) = { desk := (m.desk.settle c x).1, due := m.due.eraseIdx i
                                    log := m.log ++ [.resolved c x] } := by
    simp [step, hi]
  have hset := settlements_keep hi
  rw [hstep] at hset ⊢
  have hchron : ∀ j, ({ desk := (m.desk.settle c x).1, due := m.due.eraseIdx i
                        log := m.log ++ [.resolved c x] } : Meeting V κ).chronicle j =
      m.chronicle j := fun j => chronicle_noted _ _ _ m j
  have hacc : ∀ j, ({ desk := (m.desk.settle c x).1, due := m.due.eraseIdx i
                      log := m.log ++ [.resolved c x] } : Meeting V κ).accepted j =
      m.accepted j := fun j => by rw [accepted_noted]; simp [Happening.accepted?]
  refine
    { name := h.name, timeout := h.timeout
      split := fun j => by rw [hchron, hacc, h.split]
      group := fun j => by rw [hchron]; exact h.group j
      nodup := fun j => by rw [hchron]; exact h.nodup j
      own := fun a b => by rw [hchron, hchron]; exact h.own a b
      old := fun j => by rw [hchron]; simpa [Rendezvous.settle] using h.old j
      ended := fun j g hg => ?_, quiet := fun d hd => ?_, result := fun d => ?_ }
  · rw [hchron] at hg
    obtain ⟨hranks, y, hy, hone⟩ := h.ended j g hg
    have hperm := hset g.cell
    rw [hone] at hperm
    exact ⟨hranks, y, hy, List.perm_singleton.mp hperm⟩
  · simp only [hchron] at hd
    have hperm := hset d
    rw [h.quiet d hd] at hperm
    exact hperm.eq_nil
  · rw [resolutions_noted]
    by_cases hd : c = d
    · subst hd
      -- the promise belongs to a generation that has ended, whose cell is still pending
      have hmem : x ∈ m.promises c :=
        List.mem_filterMap.mpr ⟨(c, x), List.mem_of_getElem? hi, if_pos rfl⟩
      obtain ⟨j, g, hg, rfl⟩ : ∃ j, ∃ g ∈ (m.chronicle j).ended, g.cell = c := by
        by_contra hnone
        have hquiet := h.quiet c fun j g hg hc => hnone ⟨j, g, hg, hc⟩
        rw [settlements, List.append_eq_nil_iff] at hquiet
        simp [hquiet.2] at hmem
      obtain ⟨-, y, -, hone⟩ := h.ended j g hg
      have hnil : m.resolutions g.cell = [] := by
        rw [settlements, List.append_eq_singleton_iff] at hone
        rcases hone with ⟨hnil, -⟩ | ⟨-, hnil⟩
        · exact hnil
        · simp [hnil] at hmem
      have hpending : m.desk.cells.result? g.cell = none := by
        have := h.result g.cell
        rwa [hnil] at this
      rw [hnil]
      simpa [Happening.result?, Rendezvous.result?, Rendezvous.settle] using
        Cells.result?_settle_self (h.old j g (List.mem_append_left _ hg)) hpending x
    · simpa [Happening.result?, hd, Rendezvous.result?, Rendezvous.settle,
        Cells.result?_settle_of_ne hd] using h.result d

/-- Whoever waits for a cell does not matter to the generations. -/
theorem Kept.wait_cell (h : Kept r m) (c : Nat) (w : κ) : Kept r (m.step (.wait c w)) where
  name := h.name
  timeout := h.timeout
  split := h.split
  group := h.group
  nodup := h.nodup
  own := h.own
  old k g hg := by
    have hsize : (m.step (.wait c w)).desk.cells.size = m.desk.cells.size :=
      Cells.size_register m.desk.cells c w
    rw [hsize]
    exact h.old k g hg
  ended := h.ended
  quiet := h.quiet
  result d := by
    have hsame : (m.step (.wait c w)).desk.result? d = m.desk.result? d :=
      Cells.result?_register m.desk.cells c d w
    rw [hsame]
    exact h.result d

theorem Kept.step (h : Kept r m) (move : Move V κ) : Kept r (m.step move) := by
  cases move with
  | arrive k rank value => exact h.arrive k rank value
  | fire k c => exact h.fire k c
  | keep i => exact h.keep i
  | wait c w => exact h.wait_cell c w

theorem kept_start (name : String) (timeout : Nat) :
    Kept ({ name, timeout } : Rendezvous V κ) (start name timeout) where
  name := rfl
  timeout := rfl
  split _ := rfl
  group _ := .none
  nodup _ := List.nodup_nil
  own _ _ _ hg := nomatch hg
  old _ _ hg := nomatch hg
  ended _ _ hg := nomatch hg
  quiet _ _ := rfl
  result _ := rfl

theorem kept_run (name : String) (timeout : Nat) (moves : List (Move V κ)) :
    Kept ({ name, timeout } : Rendezvous V κ) ((start name timeout).run moves) := by
  have hrun : ∀ m : Meeting V κ, Kept { name, timeout } m →
      Kept ({ name, timeout } : Rendezvous V κ) (m.run moves) := by
    induction moves with
    | nil => exact fun _ hm => hm
    | cons move moves ih => exact fun m hm => ih (m.step move) (hm.step move)
  exact hrun _ (kept_start name timeout)

/-! ### The generations of a meeting -/

theorem Kept.apart (h : Kept r m) : Apart r m where
  split := h.split
  nodup := h.nodup
  own := h.own
  ranks k g hg := by
    rcases List.mem_append.mp hg with hg | hg
    · exact (h.ended k g hg).1
    · obtain ⟨G, -, hmirror, -, hne⟩ := h.group_of_waiting (Option.mem_toList.mp hg)
      exact ⟨hne, hmirror.nodup, fun _ => hmirror.lt_of_mem_ranks⟩
  answer k rank value := by
    have hjoined := mem_joined_ranks (m := m) (k := k) rank
    rcases h.enter_cases k rank value with ⟨e, hent, hkind, hwhy⟩ | ⟨hrank, hnew, hent⟩
    · rw [hent]
      exact ⟨hkind, hwhy.imp_right hjoined.mp⟩
    · have hok : ∃ c, (m.desk.enter k rank value).2.answer = .ok c := by
        rw [hent, Rendezvous.leave]
        split <;> exact ⟨_, rfl⟩
      obtain ⟨c, hc⟩ := hok
      rw [hc]
      exact ⟨hrank, fun g hg hmem => hnew (hjoined.mpr ⟨g, hg, hmem⟩)⟩
  waiting k g hg := by
    obtain ⟨G, -, hmirror, hfew, -⟩ := h.group_of_waiting hg
    have hfree := h.free_waiting hg
    have hnil : m.settlements g.cell = [] := h.quiet g.cell fun j a ha => by
      by_cases hj : j = k
      · exact hfree.ended a (hj ▸ ha)
      · exact hfree.others j hj a (List.mem_append_left _ ha)
    rw [settlements, List.append_eq_nil_iff] at hnil
    exact ⟨hmirror.alive, hfew, by rw [h.result, hnil.1]; rfl, hnil⟩
  ended k g hg := by
    obtain ⟨-, x, hx, hone⟩ := h.ended k g hg
    rw [settlements, List.append_eq_singleton_iff] at hone
    rcases hone with ⟨hres, hdue⟩ | ⟨hres, hdue⟩
    · exact ⟨x, hx, .inl ⟨by rw [h.result, hres]; rfl, hres, hdue⟩⟩
    · exact ⟨x, hx, .inr ⟨by rw [h.result, hres]; rfl, hres, hdue⟩⟩
  late k g hg := by
    obtain ⟨hstep, hobserve⟩ := h.fire_other (k := k) (c := g.cell) fun w hw hc =>
      (h.free_waiting hw).ended g hg hc.symm
    exact ⟨hstep, fun j => by rw [hstep, chronicle_noted, hobserve]⟩

/-- Generations never mix: whatever the order of arrivals, clocks and promises at a rendezvous that
begins empty, its generations are kept apart. -/
theorem generations_apart (name : String) (timeout : Nat) (moves : List (Move V κ)) :
    Apart ({ name, timeout } : Rendezvous V κ) ((start name timeout).run moves) :=
  (kept_run name timeout moves).apart

/-- The clock of a first generation runs out once while it waits and once more while a second one
does; the second fills up all the same, and only then gets its result. -/
example :
    let k : RendezvousKey := ⟨⟨1⟩, [⟨0⟩, ⟨1⟩], 7⟩
    let m : Meeting Nat Unit := (start "test" 50).run [.arrive k 0 10, .fire k 0, .arrive k 0 11,
      .fire k 0, .arrive k 1 21, .keep 1]
    m.desk.result? 1 = some (.ok [11, 21]) ∧ m.desk.result? 0 = none ∧
      (m.chronicle k).all.map (fun g => (g.cell, g.arrivals, g.timedOut)) =
        [(0, [(0, 10)], true), (1, [(0, 11), (1, 21)], false)] := by
  exact ⟨rfl, rfl, rfl⟩

end Meeting

end OpFlow
