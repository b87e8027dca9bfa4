import Mathlib.Data.List.Induction
import OpFlow.Proofs.Collective.Separation
import OpFlow.Proofs.Collective.Meetings

/-!
Rounds of an exchange: every participant of a group calls once, in some order, while anything may go
on under other keys and in other exchanges. Then all of them are handed one cell, and each gets what
the exchange makes of the contributions in the order of their ranks.
-/
namespace OpFlow

variable {V κ : Type}

namespace Happening

def arrival? (key : RendezvousKey) : Happening V → Option (Nat × V)
  | arrived j rank value _ => if j = key then some (rank, value) else none
  | _ => none

def answer? (key : RendezvousKey) (rank : Nat) : Happening V → Option (Except Error Nat)
  | arrived j r _ answer => if j = key ∧ r = rank then some answer else none
  | _ => none

end Happening

namespace Meeting

variable {r : Rendezvous V κ} {m : Meeting V κ} {key : RendezvousKey}

def Move.arrival? (key : RendezvousKey) : Move V κ → Option (Nat × V)
  | arrive j rank value => if j = key then some (rank, value) else none
  | _ => none

def arrivals (m : Meeting V κ) (key : RendezvousKey) : List (Nat × V) :=
  m.log.filterMap (Happening.arrival? key)

def answer? (m : Meeting V κ) (key : RendezvousKey) (rank : Nat) : Option (Except Error Nat) :=
  m.log.findSome? (Happening.answer? key rank)

theorem arrivals_step (m : Meeting V κ) (key : RendezvousKey) (move : Move V κ) :
    (m.step move).arrivals key = m.arrivals key ++ (move.arrival? key).toList := by
  cases move with
  | arrive j rank value =>
    by_cases hj : j = key <;>
      simp [step, arrivals, List.filterMap_append, Happening.arrival?, Move.arrival?, hj]
  | fire j c => simp [step, arrivals, List.filterMap_append, Happening.arrival?, Move.arrival?]
  | keep i =>
    rw [step]
    split <;> simp [arrivals, List.filterMap_append, Happening.arrival?, Move.arrival?]
  | wait c w => simp [step, arrivals, Move.arrival?]

theorem arrivals_run (m : Meeting V κ) (key : RendezvousKey) (moves : List (Move V κ)) :
    (m.run moves).arrivals key = m.arrivals key ++ moves.filterMap (Move.arrival? key) := by
  induction moves generalizing m with
  | nil => simp [run]
  | cons move moves ih =>
    rw [show m.run (move :: moves) = (m.step move).run moves from rfl, ih, arrivals_step,
      List.filterMap_cons]
    cases move.arrival? key <;> simp

/-- Everybody who came to a key was let in. -/
structure AllIn (m : Meeting V κ) (key : RendezvousKey) : Prop where
  accepted : (m.accepted key).map (fun a => (a.1, a.2.1)) = m.arrivals key
  answer : ∀ rank value answer, .arrived key rank value answer ∈ m.log →
    ∃ c, answer = .ok c ∧ (rank, value, c) ∈ m.accepted key

theorem allIn_start (name : String) (timeout : Nat) (key : RendezvousKey) :
    (start name timeout : Meeting V κ).AllIn key where
  accepted := rfl
  answer _ _ _ h := nomatch h

theorem AllIn.congr {m' : Meeting V κ} (h : m.AllIn key) {e : Happening V}
    (hlog : m'.log = m.log ++ [e]) (harrival : e.arrival? key = none) : m'.AllIn key := by
  have haccepted : e.accepted? key = none := by
    rcases e with ⟨j, rank, value, _ | c⟩ | _ | _
    · rfl
    · by_cases hj : j = key <;> simp_all [Happening.arrival?, Happening.accepted?]
    · rfl
    · rfl
  have hacc : m'.accepted key = m.accepted key := by
    simp [Meeting.accepted, hlog, List.filterMap_append, haccepted]
  have harr : m'.arrivals key = m.arrivals key := by
    simp [arrivals, hlog, List.filterMap_append, harrival]
  refine ⟨by rw [hacc, harr, h.accepted], fun rank value answer hmem => ?_⟩
  rw [hlog, List.mem_append, List.mem_singleton] at hmem
  rw [hacc]
  rcases hmem with hmem | rfl
  · exact h.answer rank value answer hmem
  · simp [Happening.arrival?] at harrival

/-- A newcomer of a rank in range that has not come before is let in. -/
theorem AllIn.arrive (h : m.AllIn key) (hkept : Kept r m) {rank : Nat} (value : V)
    (hrank : rank < key.size) (hnew : rank ∉ (m.arrivals key).map Prod.fst) :
    (m.step (.arrive key rank value)).AllIn key := by
  -- whoever waits here came before
  have hcame : ∀ g ∈ (m.chronicle key).waiting, ∀ s ∈ g.ranks,
      s ∈ (m.arrivals key).map Prod.fst := by
    intro g hg s hs
    obtain ⟨⟨s, v⟩, hmem, rfl⟩ := List.mem_map.1 hs
    have hhanded : (s, v, g.cell) ∈ m.accepted key := by
      rw [← hkept.split]
      refine List.mem_flatMap.2 ⟨g, ?_, List.mem_map.2 ⟨(s, v), hmem, rfl⟩⟩
      rw [Chronicle.all, Option.mem_def.1 hg]
      simp
    rw [← h.accepted, List.map_map]
    exact List.mem_map.2 ⟨_, hhanded, rfl⟩
  obtain ⟨c, hc⟩ : ∃ c, (m.desk.enter key rank value).2.answer = .ok c := by
    have hanswer := hkept.apart.answer key rank value
    cases hcase : (m.desk.enter key rank value).2.answer with
    | ok c => exact ⟨c, rfl⟩
    | error e =>
      rw [hcase] at hanswer
      rcases hanswer.2 with hout | ⟨g, hg, hmem⟩
      · omega
      · exact absurd (hcame g hg rank hmem) hnew
  have hlog : (m.step (.arrive key rank value)).log =
      m.log ++ [.arrived key rank value (.ok c)] := by
    simp [step, hc]
  have hacc : (m.step (.arrive key rank value)).accepted key =
      m.accepted key ++ [(rank, value, c)] := by
    simp [Meeting.accepted, hlog, List.filterMap_append, Happening.accepted?]
  constructor
  · rw [hacc, arrivals_step, ← h.accepted]
    simp [Move.arrival?]
  · intro s v answer hmem
    rw [hacc]
    rw [hlog, List.mem_append, List.mem_singleton] at hmem
    rcases hmem with hmem | heq
    · obtain ⟨d, hd, hin⟩ := h.answer s v answer hmem
      exact ⟨d, hd, List.mem_append_left _ hin⟩
    · simp only [Happening.arrived.injEq, true_and] at heq
      obtain ⟨rfl, rfl, rfl⟩ := heq
      exact ⟨c, rfl, by simp⟩

theorem AllIn.step (h : m.AllIn key) (hkept : Kept r m) (move : Move V κ)
    (hrange : ∀ a ∈ (m.step move).arrivals key, a.1 < key.size)
    (honce : (((m.step move).arrivals key).map Prod.fst).Nodup) : (m.step move).AllIn key := by
  cases move with
  | arrive j rank value =>
    by_cases hj : j = key
    · subst hj
      have harr : (m.step (.arrive j rank value)).arrivals j = m.arrivals j ++ [(rank, value)] := by
        rw [arrivals_step]; simp [Move.arrival?]
      rw [harr] at hrange honce
      rw [List.map_append, List.nodup_append] at honce
      exact h.arrive hkept value (hrange (rank, value) (by simp))
        fun hmem => honce.2.2 rank hmem rank (by simp) rfl
    · exact h.congr (e := .arrived j rank value (m.desk.enter j rank value).2.answer) rfl
        (by simp [Happening.arrival?, hj])
  | fire j c => exact h.congr (e := .fired j c) rfl rfl
  | keep i =>
    rw [Meeting.step]
    split
    · next c x _ => exact h.congr (e := .resolved c x) rfl rfl
    · exact h
  | wait c w => exact ⟨h.accepted, h.answer⟩

/-- Who comes once, with a rank in range, is let in. -/
theorem allIn_run (name : String) (timeout : Nat) (moves : List (Move V κ)) (key : RendezvousKey)
    (hrange : ∀ a ∈ moves.filterMap (Move.arrival? key), a.1 < key.size)
    (honce : ((moves.filterMap (Move.arrival? key)).map Prod.fst).Nodup) :
    ((start name timeout : Meeting V κ).run moves).AllIn key := by
  induction moves using List.reverseRecOn with
  | nil => exact allIn_start name timeout key
  | append_singleton moves move ih =>
    have hrun : (start name timeout : Meeting V κ).run (moves ++ [move]) =
        ((start name timeout).run moves).step move := by simp [run]
    have harr : (((start name timeout : Meeting V κ).run moves).step move).arrivals key =
        (moves ++ [move]).filterMap (Move.arrival? key) := by
      rw [← hrun, arrivals_run]
      rfl
    have hsub := (List.sublist_append_left moves [move]).filterMap (Move.arrival? key)
    have hbefore := ih (fun a ha => hrange a (hsub.mem ha)) (honce.sublist (hsub.map Prod.fst))
    rw [hrun]
    exact hbefore.step (kept_run name timeout moves) move (harr ▸ hrange) (harr ▸ honce)

/-- When as many came to a key as it has participants, all were let in and no clock ran out, they
make one generation. -/
theorem AllIn.one_generation (h : m.AllIn key) (hkept : Kept r m) (hsome : m.arrivals key ≠ [])
    (hcount : (m.arrivals key).length = key.size)
    (hlate : ∀ g ∈ (m.chronicle key).all, g.timedOut = false) :
    ∃ g, m.chronicle key = { ended := [g] } ∧ g.arrivals = m.arrivals key := by
  have hsplit : (m.chronicle key).all.flatMap Generation.arrivals = m.arrivals key := by
    rw [← h.accepted, ← hkept.split, List.map_flatMap]
    simp [Generation.handed, Function.comp_def]
  have hne : ∀ g ∈ (m.chronicle key).all, g.arrivals ≠ [] := fun g hg =>
    (hkept.apart.ranks key g hg).1
  have hfull : ∀ g ∈ (m.chronicle key).ended, g.arrivals.length = key.size := fun g hg => by
    obtain ⟨x, houtcome, -⟩ := hkept.apart.ended key g hg
    cases houtcome with
    | full _ hall _ _ => exact hall
    | late htimedOut _ =>
      rw [hlate g (List.mem_append_left _ hg)] at htimedOut
      cases htimedOut
  rcases hchron : m.chronicle key with ⟨ended, waiting⟩
  rw [hchron] at hsplit hne hfull
  simp only [Chronicle.all] at hsplit hne hfull
  cases ended with
  | nil =>
    cases waiting with
    | none => exact absurd hsplit.symm hsome
    | some g =>
      have hfew := (hkept.apart.waiting key g (by rw [hchron]; rfl)).2.1
      have hall : g.arrivals = m.arrivals key := by simpa using hsplit
      rw [hall, hcount] at hfew
      exact absurd hfew (Nat.lt_irrefl _)
  | cons g rest =>
    -- the first generation leaves nobody for another
    have hsplit' : g.arrivals ++ (rest ++ waiting.toList).flatMap Generation.arrivals =
        m.arrivals key := by
      rw [← hsplit]; rfl
    have hlen := congrArg List.length hsplit'
    rw [List.length_append, hcount, hfull g List.mem_cons_self] at hlen
    have hnil := List.length_eq_zero_iff.1 (Nat.add_eq_left.1 hlen)
    have hrest : rest ++ waiting.toList = [] := List.eq_nil_iff_forall_not_mem.2 fun g' hg' =>
      hne g' (List.mem_cons_of_mem _ hg') (List.flatMap_eq_nil_iff.1 hnil g' hg')
    rw [hnil, List.append_nil] at hsplit'
    obtain ⟨rfl, hwaiting⟩ := List.append_eq_nil_iff.1 hrest
    exact ⟨g, by rw [Option.toList_eq_nil_iff.1 hwaiting], hsplit'⟩

/-- What the participants of one generation were handed is its cell. -/
theorem AllIn.answer_eq (h : m.AllIn key) (hkept : Kept r m) {g : Generation V}
    (hone : m.chronicle key = { ended := [g] }) {rank : Nat} {value : V}
    (hmem : (rank, value) ∈ m.arrivals key) : m.answer? key rank = some (.ok g.cell) := by
  have hcells : ∀ a ∈ m.accepted key, a.2.2 = g.cell := by
    rw [← hkept.split, hone]
    intro a ha
    simp only [Chronicle.all, Option.toList_none, List.append_nil, List.flatMap_singleton,
      Generation.handed, List.mem_map] at ha
    obtain ⟨_, -, rfl⟩ := ha
    rfl
  have hhanded : ∀ e ∈ m.log, ∀ a, e.answer? key rank = some a → a = .ok g.cell := by
    intro e he a ha
    cases e with
    | arrived j s v answer =>
      rw [Happening.answer?] at ha
      split at ha
      · next hj =>
        obtain ⟨rfl, rfl⟩ := hj
        obtain ⟨c, rfl, hin⟩ := h.answer s v answer he
        rw [← Option.some.inj ha, ← hcells _ hin]
      · cases ha
    | fired j c => cases ha
    | resolved c x => cases ha
  cases hfind : m.answer? key rank with
  | some a =>
    obtain ⟨e, he, ha⟩ := List.exists_of_findSome?_eq_some hfind
    rw [hhanded e he a ha]
  | none =>
    obtain ⟨e, he, ha⟩ := List.mem_filterMap.1 hmem
    have hnone := List.findSome?_eq_none_iff.1 hfind e he
    cases e with
    | arrived j s v answer =>
      simp only [Happening.arrival?] at ha
      split at ha
      · simp_all [Happening.answer?]
      · cases ha
    | fired j c => cases ha
    | resolved c x => cases ha

/-- If the participants of a key come once each, in whatever order, and no clock of theirs runs out,
then once no promise is due all of them have the contributions in the order of their ranks. -/
theorem gathered (name : String) (timeout : Nat) {moves : List (Move V κ)} {values : List V}
    (hsize : values.length = key.size)
    (hcalls : (moves.filterMap (Move.arrival? key)).Perm (values.zipIdx.map Prod.swap))
    (hlate : ∀ g ∈ (((start name timeout : Meeting V κ).run moves).chronicle key).all,
      g.timedOut = false)
    (hdue : ((start name timeout : Meeting V κ).run moves).due = []) {rank : Nat}
    (hrank : rank < values.length) :
    ∃ c, ((start name timeout : Meeting V κ).run moves).answer? key rank = some (.ok c) ∧
      ((start name timeout : Meeting V κ).run moves).desk.result? c = some (.ok values) := by
  have hranks : (values.zipIdx.map Prod.swap).map Prod.fst = List.range values.length := by
    rw [List.map_map, List.range_eq_range', ← List.zipIdx_map_snd 0 values]
    rfl
  have hin : ((start name timeout : Meeting V κ).run moves).AllIn key := by
    refine allIn_run name timeout moves key (fun a ha => ?_) ?_
    · have hmem := List.mem_map_of_mem (f := Prod.fst) (hcalls.mem_iff.1 ha)
      rw [hranks, List.mem_range] at hmem
      exact hsize ▸ hmem
    · rw [(hcalls.map Prod.fst).nodup_iff, hranks]
      exact List.nodup_range
  have hkept := kept_run (κ := κ) name timeout moves
  have harr : ((start name timeout : Meeting V κ).run moves).arrivals key =
      moves.filterMap (Move.arrival? key) := by
    rw [arrivals_run]; rfl
  generalize (start name timeout : Meeting V κ).run moves = m at *
  rw [← harr] at hcalls
  have hmem : ∀ s (hs : s < values.length), (s, values[s]) ∈ m.arrivals key := fun s hs =>
    hcalls.mem_iff.2 (List.mem_map.2 ⟨(values[s], s), by simp [List.mem_zipIdx_iff_getElem?], rfl⟩)
  obtain ⟨g, hone, hall⟩ := hin.one_generation hkept (List.ne_nil_of_mem (hmem rank hrank))
    (by simpa [hsize] using hcalls.length_eq) hlate
  refine ⟨g.cell, hin.answer_eq hkept hone (hmem rank hrank), ?_⟩
  obtain ⟨x, houtcome, hdone⟩ := hkept.apart.ended key g (by simp [hone])
  have hpromises : m.promises g.cell = [] := by simp [promises, hdue]
  have hresult : m.desk.result? g.cell = some x := by
    rcases hdone with ⟨-, -, hpending⟩ | ⟨hresult, -, -⟩
    · rw [hpromises] at hpending; cases hpending
    · exact hresult
  rw [hresult]
  cases houtcome with
  | late htimedOut _ =>
    rw [hlate g (by simp [hone, Chronicle.all])] at htimedOut
    cases htimedOut
  | @full values' _ _ hsize' hranked =>
    have heq : values' = values := List.ext_getElem (hsize'.trans hsize.symm) fun s hs' hs => by
      have hget := hranked s values[s] (hall ▸ hmem s hs)
      exact Option.some.inj ((List.getElem?_eq_getElem hs').symm.trans hget)
    rw [heq]

end Meeting

namespace Meetings

def Move.call? (kind : ExchangeKind) (key : RendezvousKey) :
    Move κ → Option (Exchange × Nat × List Bytes)
  | call e j rank blocks => if e.kind = kind ∧ j = key then some (e, rank, blocks) else none
  | _ => none

/-- What the participant of a rank has got from an exchange, if there is anything yet. -/
def outcome? (t : Meetings κ) (e : Exchange) (key : RendezvousKey) (rank : Nat) :
    Option (Except Error (Option Bytes)) :=
  match (t.meeting e.kind).answer? key rank with
  | none => none
  | some (.error error) => some (.error error)
  | some (.ok cell) =>
    (t.transport.contributions? e.kind cell).map fun contributions =>
      contributions.bind (e.result rank)

/-- A run of a transport, from the start, in which the participants under a key call for one
exchange once each, whatever else happens before, between and after their calls. -/
structure Round (timeout : Nat) (e : Exchange) (key : RendezvousKey)
    (contributions : List (List Bytes)) (moves : List (Move κ)) : Prop where
  size : contributions.length = key.size
  /-- In some order each rank brings its contribution. -/
  calls : (moves.filterMap (Move.call? e.kind key)).Perm
    (contributions.zipIdx.map fun c => (e, c.2, c.1))
  inTime : ∀ g ∈ ((((start timeout).run moves).meeting e.kind).chronicle key).all,
    g.timedOut = false
  /-- Whoever has filled a group has let its participants know. -/
  kept : (((start timeout).run moves).meeting e.kind).due = []

def oneBlockEach (inputs : List Bytes) : List (List Bytes) := inputs.map fun b => [b]

@[simp] theorem length_oneBlockEach (inputs : List Bytes) :
    (oneBlockEach inputs).length = inputs.length := List.length_map _

@[simp] theorem flatten_oneBlockEach (inputs : List Bytes) :
    (oneBlockEach inputs).map List.flatten = inputs := by
  simp [oneBlockEach, Function.comp_def]

namespace Round

variable {timeout : Nat} {e : Exchange} {key : RendezvousKey} {contributions : List (List Bytes)}
  {moves : List (Move κ)}

/-- None of its calls is refused, so all of them get to the rendezvous. -/
theorem arrivals_eq (h : Round timeout e key contributions moves)
    (hfits : e.kind = .allToAll → ∀ blocks ∈ contributions, blocks.length = key.size) :
    (moves.filterMap (Move.at? e.kind)).filterMap (Meeting.Move.arrival? key) =
      (moves.filterMap (Move.call? e.kind key)).map Prod.snd := by
  rw [List.filterMap_filterMap, List.map_filterMap]
  refine List.filterMap_congr fun move hmove => ?_
  cases move with
  | call e' j rank blocks =>
    by_cases hhere : e'.kind = e.kind ∧ j = key
    · have hmem : (e', rank, blocks) ∈ contributions.zipIdx.map fun c => (e, c.2, c.1) :=
        h.calls.mem_iff.1 (List.mem_filterMap.2 ⟨_, hmove, if_pos hhere⟩)
      obtain ⟨⟨_, _⟩, hin, heq⟩ := List.mem_map.1 hmem
      obtain ⟨rfl, rfl, rfl⟩ : e = e' ∧ _ = rank ∧ _ = blocks := by simpa using heq
      obtain ⟨-, rfl⟩ := hhere
      rw [Move.at?_call _ _ _ fun hall => hfits hall _ (List.fst_mem_of_mem_zipIdx hin)]
      simp [Move.call?, Meeting.Move.arrival?]
    · have hnone : Move.call? e.kind key (.call e' j rank blocks : Move κ) = none := if_neg hhere
      rw [hnone]
      by_cases hfit : e'.kind = .allToAll → blocks.length = j.size
      · rw [Move.at?_call _ _ _ hfit]
        split
        · next hkind => simpa [Meeting.Move.arrival?] using fun hj => hhere ⟨hkind, hj⟩
        · rfl
      · obtain ⟨hall, hlength⟩ := Classical.not_imp.1 hfit
        rw [Move.at?_call_refused _ _ hall hlength]
        rfl
  | fire x => by_cases hx : x.kind = e.kind <;>
      simp [Move.at?, Move.place?, Move.call?, Meeting.Move.arrival?, hx]
  | keep kind i => by_cases hk : kind = e.kind <;>
      simp [Move.at?, Move.place?, Move.call?, Meeting.Move.arrival?, hk]
  | wait kind c w => by_cases hk : kind = e.kind <;>
      simp [Move.at?, Move.place?, Move.call?, Meeting.Move.arrival?, hk]

/-- After a round every participant has what its exchange makes of all contributions, in the order
of the ranks. -/
theorem outcome_eq (h : Round timeout e key contributions moves)
    (hfits : e.kind = .allToAll → ∀ blocks ∈ contributions, blocks.length = key.size) {rank : Nat}
    (hrank : rank < contributions.length) :
    ((start timeout).run moves).outcome? e key rank = some (e.result rank contributions) := by
  have hcalls := h.calls.map Prod.snd
  rw [← h.arrivals_eq hfits, List.map_map] at hcalls
  have hmeeting := meeting_run (start timeout) e.kind moves
  rw [meeting_start] at hmeeting
  have hlate := h.inTime
  have hkept := h.kept
  rw [hmeeting] at hlate hkept
  obtain ⟨c, hanswer, hresult⟩ :=
    Meeting.gathered _ timeout h.size hcalls hlate hkept hrank
  rw [← hmeeting] at hanswer hresult
  have hcontributions : ((start timeout).run moves).transport.contributions? e.kind c =
      some (.ok contributions) := by
    rw [Transport.contributions?, get_transport, hresult]
  simp [outcome?, hanswer, hcontributions, Except.bind]

end Round

def pairKey : RendezvousKey := ⟨⟨1⟩, [⟨0⟩, ⟨1⟩], 7⟩

def pairCalls (e : Exchange) (first second : Bytes) : List (Move Unit) :=
  [.call e pairKey 1 [second], .call e pairKey 0 [first], .keep e.kind 0]

theorem round_pairCalls (e : Exchange) (he : e.kind = .allReduce ∨ e.kind = .reduceScatter)
    (first second : Bytes) :
    Round 50 e pairKey (oneBlockEach [first, second]) (pairCalls e first second) := by
  cases e with
  | allReduce k t | reduceScatter k t =>
    exact
      { size := rfl
        calls := List.Perm.swap _ _ _
        inTime := fun g hg => by
          have hone : g = ⟨0, [(1, [second]), (0, [first])], false⟩ := List.mem_singleton.1 hg
          rw [hone]
        kept := rfl }
  | allGather | allToAll | permute pairs => rcases he with h | h <;> cases h

end Meetings

end OpFlow
