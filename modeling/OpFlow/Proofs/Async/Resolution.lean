import OpFlow.Proofs.Async.Course
import OpFlow.Proofs.Async.Progress

/-!
How cells are settled and continuations run. A cell is settled by the one who keeps its promise, or
gives it up, and stays as it is; each continuation runs once, in its turn.
-/
namespace OpFlow.Async

variable {α : Type}

namespace NetworkOf

variable {n : NetworkOf α (Ticketed α)} {others : List (Job α)} {made : Made α} {c h t : Nat}
  {j : Job α} {turn : Turn α (Ticketed α)} {notes : List (Event α)}

/-- A promise that has been kept is not made again. -/
theorem Deed.kept_stays (hd : n.Deed (Prod.mk t) t j turn notes) (hlt : h < n.handles.size)
    (hh : h ∉ n.promises) : h < turn.network.handles.size ∧ h ∉ turn.network.promises := by
  cases hd with
  | idle | noted | split | registered | atOnce | fired | stuck | uncounted | counted | completed
  | trivial => exact ⟨hlt, hh⟩
  | shared _ hn => exact ⟨Nat.lt_of_lt_of_le hlt hn.size_le, hn.promises ▸ hh⟩
  | made hn => exact ⟨Nat.lt_of_lt_of_le hlt hn.size_le, hn.promises ▸ hh⟩
  | promised =>
    refine ⟨by simpa [named, withCell] using Nat.lt_succ_of_lt hlt, fun hmem => ?_⟩
    rcases List.mem_append.1 hmem with hmem | hmem
    · exact hh hmem
    · exact Nat.ne_of_lt hlt (List.mem_singleton.1 hmem)
  | derived => exact ⟨by simpa [named, withCell] using Nat.lt_succ_of_lt hlt, hh⟩
  | joined => exact ⟨hlt, hh⟩
  | kept => exact ⟨hlt, fun hmem => hh (List.mem_of_mem_erase hmem)⟩

/-- Only who keeps a promise settles its cell. -/
theorem Deed.keeps_promise (hd : n.Deed (Prod.mk t) t j turn notes) (ho : n.Owned (j :: others) made)
    (hmade : (c, .promise) ∈ made) (hnone : n.cells.result? c = none) {r : Result α}
    (hsome : turn.network.cells.result? c = some r) :
    ∃ h r', j = .act (.settle h r') ∧ n.promised? h = some c ∧ r = r'.map .value := by
  have hlt := ho.lt c _ hmade
  -- nobody else owns the cell
  have howner : ∀ {o : Origin α}, j.owns? = some (c, o) → o = .promise := fun hj =>
    (ho.fits c _ _ (List.mem_append_left _ (List.mem_append_right _
      (List.mem_filterMap.2 ⟨j, List.mem_append_left _ List.mem_cons_self, hj⟩))) hmade).symm
  have hsame : turn.network.cells.result? c = n.cells.result? c → False := fun heq => by
    rw [heq, hnone] at hsome
    cases hsome
  have hadd : ∀ x, (n.cells.add x).result? c = n.cells.result? c := fun x =>
    (Cells.result?_add ..).trans (if_neg (Nat.ne_of_lt hlt))
  cases hd with
  | idle | noted | split | atOnce | stuck | uncounted | counted | trivial => exact (hsame rfl).elim
  | shared _ hn => exact (hsame (by rw [hn.cells])).elim
  | registered => exact (hsame (Cells.result?_register ..)).elim
  | promised | derived | joined => exact (hsame (hadd none)).elim
  | made hn => exact (hsame (by rw [hn.cells]; exact hadd _)).elim
  | @kept h d r' hd =>
    by_cases hdc : d = c
    · subst hdc
      have hresult := Cells.result?_settle (ho.pending_of_promised hd) (r'.map .value) d
      rw [if_pos rfl] at hresult
      exact ⟨h, r', rfl, hd, Option.some.inj (hsome.symm.trans hresult)⟩
    · exact (hsame (Cells.result?_settle_of_ne hdc _)).elim
  | @fired source target =>
    by_cases hdc : target = c
    · subst hdc
      cases howner rfl
    · exact (hsame (Cells.result?_settle_of_ne hdc _)).elim
  | @completed inputs target =>
    by_cases hdc : target = c
    · subst hdc
      cases howner rfl
    · exact (hsame (Cells.result?_settle_of_ne hdc _)).elim

end NetworkOf

namespace Crew

open NetworkOf

variable {s s' : Crew α} {i c h t : Nat} {r : Result α} {rest : List (Piece α)}

theorem Step.result?_mono (hs : s.Reachable) (hstep : Step s s') (hc : s.result? c = some r) :
    s'.result? c = some r := by
  cases hstep with
  | act h =>
    obtain ⟨p, rest, others, hacted⟩ := acted h
    exact hacted.result?_mono hs.sound hc
  | enter a => exact hc

theorem Reachable.result?_mono (hs : s.Reachable) (hl : Leads s s') (hc : s.result? c = some r) :
    s'.result? c = some r := by
  induction hl with
  | refl => exact hc
  | tail hl hstep ih => exact hstep.result?_mono (hs.trans hl) ih

def Spent (s : Crew α) (h : Nat) : Prop := h < s.network.handles.size ∧ h ∉ s.network.promises

theorem Spent.leads (hl : Leads s s') (hh : s.Spent h) : s'.Spent h := by
  induction hl with
  | refl => exact hh
  | tail _ hstep ih =>
    cases hstep with
    | enter a => exact ih
    | act hact =>
      obtain ⟨p, rest, others, hacted⟩ := acted hact
      rw [Spent, hacted.network]
      cases p with
      | waiter | back => exact ih
      | job j => exact (deed (Prod.mk _) _ j).kept_stays ih.1 ih.2

theorem Spent.promised? (hh : s.Spent h) : s.network.promised? h = none :=
  if_neg fun hmem => hh.2 (List.contains_iff_mem.1 hmem)

/-- Who keeps a promise settles its cell, and the promise is gone. -/
theorem settle_promised (hs : s.Sound) {x : Except Error α}
    (hagenda : s.agenda i = .job (.act (.settle h x)) :: rest) (hact : s.act? i = some s')
    (hc : s.network.promised? h = some c) :
    s.result? c = none ∧ s'.result? c = some (x.map .value) ∧ s'.Spent h := by
  have hnetwork : s'.network = (NetworkOf.settleCell
      { s.network with promises := s.network.promises.erase h } c (x.map .value)).network := by
    simp only [act?, hagenda, Option.some.injEq] at hact
    subst hact
    simp only [deal, Piece.deal, step, NetworkOf.act, hc]
  have hpending := hs.owned.pending_of_promised hc
  have hmem : h ∈ s.network.promises := by
    by_contra hmem
    rw [NetworkOf.promised?, if_neg fun hc => hmem (List.contains_iff_mem.1 hc)] at hc
    cases hc
  refine ⟨hpending.2, ?_, ?_⟩
  · rw [result?, hnetwork]
    exact (Cells.result?_settle hpending _ c).trans (if_pos rfl)
  · rw [Spent, hnetwork]
    exact ⟨hs.placed.kept h hmem, hs.placed.nodup.not_mem_erase⟩

theorem settle_spent {x : Except Error α}
    (hagenda : s.agenda i = .job (.act (.settle h x)) :: rest) (hact : s.act? i = some s')
    (hc : s.network.promised? h = none) : s'.result? = s.result? := by
  simp only [act?, hagenda, Option.some.injEq] at hact
  subst hact
  funext d
  simp only [result?, deal, Piece.deal, step, NetworkOf.act, hc]
  rfl

/-- Only who keeps its promise settles a promised cell. -/
theorem Step.keeps_promise (hs : s.Sound) (hstep : Step s s') (hmade : (c, .promise) ∈ s.made)
    (hnone : s.result? c = none) (hsome : s'.result? c = some r) :
    ∃ i h x rest, s.agenda i = .job (.act (.settle h x)) :: rest ∧
      s.network.promised? h = some c ∧ r = x.map .value := by
  cases hstep with
  | enter a =>
    rw [show (s.enter a).result? c = s.result? c from rfl, hnone] at hsome
    cases hsome
  | act hact =>
    obtain ⟨p, rest, others, hacted⟩ := acted hact
    rw [result?, hacted.network] at hsome
    cases p with
    | waiter | back =>
      rw [show (s.deal _).network = s.network from rfl] at hsome
      rw [show s.network.cells.result? c = none from hnone] at hsome
      cases hsome
    | job j =>
      obtain ⟨h, x, rfl, hc, hr⟩ := Deed.keeps_promise
        (deed (n := s.network) (Prod.mk s.log.length) s.log.length j)
        (hs.owned.perm hacted.pool.symm) hmade hnone hsome
      exact ⟨_, h, x, rest, hacted.before, hc, hr⟩

/-- A continuation that has begun has been registered with a cell that is settled. -/
theorem registered_of_ran (hs : s.Reachable) (ht : t ∈ s.ran) :
    ∃ c, (t, c) ∈ s.registrations ∧ (s.result? c).isSome := by
  obtain ⟨e, he, heq⟩ := List.mem_filterMap.1 ht
  obtain ⟨⟨k, e⟩, hlog, rfl⟩ := List.mem_map.1 he
  cases e with
  | ran t' =>
    obtain rfl := Option.some.inj heq
    obtain ⟨pre, post, hlog⟩ := List.append_of_mem hlog
    obtain ⟨c, r, hregistered, hsettled⟩ := hs.inOrder.ran pre k t' post hlog
    have hevents : ∀ e ∈ pre.map Prod.snd, e ∈ s.events := fun e he => by
      rw [events, hlog, List.map_append]
      exact List.mem_append_left _ he
    exact ⟨c, mem_registrations.2 (hevents _ hregistered),
      Option.isSome_of_eq_some ((hs.accounted.results c r).2 (hevents _ hsettled))⟩
  | made | settled | registered | returned => cases heq

theorem count_registrations (hs : s.Reachable) (ht : (t, c) ∈ s.registrations) :
    s.ran.count t + s.held.count t + s.waiting.count t = 1 := by
  have hcount := hs.accounted.tickets.count_eq t
  rw [List.count_eq_one_of_mem hs.accounted.nodup (List.mem_map_of_mem ht), List.count_append,
    List.count_append] at hcount
  exact hcount

theorem count_ran_of_pending (hs : s.Reachable) (ht : (t, c) ∈ s.registrations)
    (hc : s.result? c = none) : s.ran.count t = 0 := by
  refine List.count_eq_zero.2 fun hmem => ?_
  obtain ⟨d, hd, hsettled⟩ := registered_of_ran hs hmem
  rw [hs.accounted.cell_eq hd ht, hc] at hsettled
  cases hsettled

theorem count_waiting_of_settled (hs : s.Reachable) (ht : (t, c) ∈ s.registrations)
    (hc : (s.result? c).isSome) : s.waiting.count t = 0 := by
  refine List.count_eq_zero.2 fun hmem => ?_
  obtain ⟨w, hw, rfl⟩ := List.mem_map.1 hmem
  obtain ⟨d, hd⟩ := (Cells.mem_allWaiters _).1 hw
  have hpending := hs.sound.pending_of_waits hd
  have hqueued := List.mem_map_of_mem (f := Prod.fst) hd
  rw [hs.accounted.queue d hpending, mem_queued] at hqueued
  rw [result?, hs.accounted.cell_eq ht hqueued, hpending.2] at hc
  cases hc

/-- A cell is settled once, by whoever keeps its promise or gives it up, and stays as it is. Each
continuation runs once, and not before its cell is settled: what was registered before runs in the
order of registration, by whoever has settled the cell and before he goes on; what is registered later
is the next that its thread runs. -/
theorem continuations_run_once (hs : s.Reachable) :
    ((s.events.filterMap Event.settled?).Nodup ∧
      (∀ c r, s.result? c = some r ↔ .settled c r ∈ s.events) ∧
      ∀ s', Leads s s' → ∀ c r, s.result? c = some r → s'.result? c = some r) ∧
    (∀ i h x rest s', s.agenda i = .job (.act (.settle h x)) :: rest → s.act? i = some s' →
      (∀ c, s.network.promised? h = some c → s.result? c = none ∧
        s'.result? c = some (x.map .value) ∧
        ∀ s'', Leads s' s'' → s''.network.promised? h = none) ∧
      (s.network.promised? h = none → s'.result? = s.result?)) ∧
    (∀ i h rest s', s.agenda i = .job (.act (.drop h)) :: rest → s.act? i = some s' →
      ∀ c, s.network.promised? h = some c →
        ∃ e, s'.result? c = some (.error e) ∧ e.kind = .unavailable) ∧
    (∀ s' c r, Step s s' → (c, .promise) ∈ s.made → s.result? c = none → s'.result? c = some r →
      ∃ i h x rest, s.agenda i = .job (.act (.settle h x)) :: rest ∧
        s.network.promised? h = some c ∧ r = x.map .value) ∧
    (∀ t c, (t, c) ∈ s.registrations → s.ran.count t ≤ 1 ∧ (s.result? c = none → s.ran.count t = 0) ∧
      ((s.result? c).isSome → s.Idle → s.ran.count t = 1)) ∧
    (∀ i s', s.act? i = some s' → s'.load < s.load) ∧
    (∀ pre i t post, s.log = pre ++ (i, .ran t) :: post →
      ∃ c r, .registered t c ∈ pre.map Prod.snd ∧ .settled c r ∈ pre.map Prod.snd) ∧
    (∀ pre i c r post, s.log = pre ++ (i, .settled c r) :: post →
      (eventsOf i post ++ s.ahead i).filter (Event.concerns c (queued c (pre.map Prod.snd))) =
        (queued c (pre.map Prod.snd)).map .ran ++ [.returned c]) ∧
    (∀ pre i t c post, s.log = pre ++ (i, .registered t c) :: post →
      (∃ r, .settled c r ∈ pre.map Prod.snd) →
      ((eventsOf i post).map some ++ (s.agenda i).map Piece.event?).head? = some (some (.ran t))) := by
  have hkept : ∀ i h x rest s', s.agenda i = .job (.act (.settle h x)) :: rest →
      s.act? i = some s' → ∀ c, s.network.promised? h = some c → s.result? c = none ∧
        s'.result? c = some (x.map .value) ∧ ∀ s'', Leads s' s'' → s''.network.promised? h = none :=
    fun i h x rest s' hagenda hact c hc => by
      obtain ⟨hnone, hsome, hspent⟩ := settle_promised hs.sound hagenda hact hc
      exact ⟨hnone, hsome, fun s'' hl => (hspent.leads hl).promised?⟩
  refine ⟨⟨hs.accounted.once, hs.accounted.results, fun s' hl c r => hs.result?_mono hl⟩,
    fun i h x rest s' hagenda hact => ⟨hkept i h x rest s' hagenda hact, settle_spent hagenda hact⟩,
    fun i h rest s' hagenda hact c hc => ?_, fun s' c r hstep => hstep.keeps_promise hs.sound,
    fun t c ht => ⟨?_, count_ran_of_pending hs ht, fun hc hidle => ?_⟩,
    fun i s' => load_act hs.sound, hs.inOrder.ran, hs.inOrder.fifo, hs.inOrder.late⟩
  · exact ⟨_, (hkept i h _ rest s' hagenda hact c hc).2.1, rfl⟩
  · have hcount := count_registrations hs ht
    omega
  · have hcount := count_registrations hs ht
    have hheld : s.held = [] := by rw [held, hidle.pieces]; rfl
    rw [count_waiting_of_settled hs ht hc, hheld, List.count_nil] at hcount
    omega

/-- A continuation waits for a second cell and gives up the promise of the first, while another thread
follows the cell that is being settled. -/
def reentrant : Crew Nat :=
  let waiting := (enter {} (.all [.promise, .promise, .follow 0 (.all [.follow 0 (.note "inner"), .drop 1]),
    .follow 1 (.note "dropped"), .follow 0 (.note "second")])).after (List.replicate 6 0)
  ((waiting.enter (.settle 0 (.ok 7))).enter (.follow 0 (.note "late"))).after
    (List.replicate 4 1 ++ List.replicate 3 2 ++ List.replicate 12 1)

theorem reentrant_reachable : reentrant.Reachable :=
  .trans (.trans (.single (.enter _)) (leads_after _ _))
    (.trans (.trans (.single (.enter _)) (.single (.enter _))) (leads_after _ _))

theorem continuations_run_once_reentrant : reentrant.Reachable ∧
    reentrant.registrations = [(5, 1), (6, 2), (7, 1), (10, 1), (11, 1)] ∧
    reentrant.ran = [5, 11, 10, 6, 7] ∧ reentrant.network.journal = ["late", "inner", "dropped", "second"] ∧
    reentrant.ran.count 6 = 1 := by
  have hregistrations : reentrant.registrations = [(5, 1), (6, 2), (7, 1), (10, 1), (11, 1)] := by cbv
  have hidle : reentrant.threads = [[], [], []] := by cbv
  obtain ⟨-, -, -, -, honce, -⟩ := continuations_run_once reentrant_reachable
  refine ⟨reentrant_reachable, hregistrations, by cbv, by cbv, ?_⟩
  refine (honce 6 2 (by rw [hregistrations]; decide)).2.2 (by cbv) fun i => ?_
  rw [agenda, hidle]
  rcases i with _ | _ | _ | i <;> rfl

end Crew

end OpFlow.Async
