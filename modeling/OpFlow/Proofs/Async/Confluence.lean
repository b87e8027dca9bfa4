import OpFlow.Proofs.Async.Design
import OpFlow.Proofs.Async.Progress

/-!
What the values of a network come to. However a network is built, and its promises kept, each value
comes to what its design says, as soon as what is under way has been done.
-/
namespace OpFlow.Async.Crew

variable {α : Type} {s : Crew α} {c : Nat} {o : Origin α} {r : Result α}

open NetworkOf

/-- Nothing is under way but actions that have not begun. -/
def Calm (s : Crew α) : Prop := ∀ k ∈ s.pool, ∃ a, k = .act a

theorem Idle.calm (h : s.Idle) : s.Calm := fun k hk => by
  rw [pool, h.pieces] at hk
  cases hk

namespace Sound

theorem waits_of_calm (h : s.Sound) (hcalm : s.Calm) {k : Job α} (hk : k ∈ s.network.work s.pool)
    (hact : ∀ a, k ≠ .act a) : ∃ t d, (t, k) ∈ s.network.cells.waiters d ∧ k.Awaits d := by
  rcases List.mem_append.1 hk with hk | hk
  · obtain ⟨a, rfl⟩ := hcalm k hk
    exact absurd rfl (hact a)
  · obtain ⟨w, hw, rfl⟩ := List.mem_map.1 hk
    obtain ⟨d, hd⟩ := (Cells.mem_allWaiters _).1 hw
    exact ⟨w.1, d, hd, h.placed.awaits d w hd⟩

/-- A join that is open waits for an input. -/
theorem pending_input (h : s.Sound) (hcalm : s.Calm) {i : Nat} {join : Join}
    (hi : s.network.joins[i]? = some join) (hopen : join.remaining ≠ 0) :
    ∃ d ∈ join.inputs, s.network.cells.result? d = none := by
  have hcount := h.counted.counted i
  rw [remaining, hi, Option.map_some, Option.getD_some] at hcount
  obtain ⟨k, hk, hjoin⟩ := List.mem_filterMap.1
    (List.count_pos_iff.1 (Nat.pos_of_ne_zero (hcount ▸ hopen)))
  obtain ⟨t, d, hw, -⟩ := h.waits_of_calm hcalm hk fun a ha => by
    subst ha
    cases hjoin
  have hpending := h.pending_of_waits hw
  have hawaited : 0 < s.network.awaited s.pool i d :=
    Nat.add_pos_left (List.count_pos_iff.2 (List.mem_filterMap.2 ⟨(t, k), hw, hjoin⟩)) _
  rw [← h.counted.pending i d hpending, inputs, hi] at hawaited
  exact ⟨d, List.count_pos_iff.1 hawaited, hpending.2⟩

/-- Whoever owns a cell while the crew is calm lacks something of what it is to be made from. -/
theorem outcome_of_owner (h : s.Sound) (hcalm : s.Calm) (ho : (c, o) ∈ s.network.owners s.pool) :
    o.outcome? s.network.cells.result? = none := by
  rcases List.mem_append.1 ho with ho | ho
  · rcases List.mem_append.1 ho with ho | ho
    · obtain ⟨d, -, heq⟩ := List.mem_map.1 ho
      obtain ⟨-, rfl⟩ := Prod.mk.inj heq
      rfl
    · obtain ⟨k, hk, howns⟩ := List.mem_filterMap.1 ho
      obtain ⟨t, d, hw, hawaits⟩ := h.waits_of_calm hcalm hk fun a ha => by
        subst ha
        cases howns
      cases k with
      | derive source target f =>
        obtain ⟨-, rfl⟩ := Prod.mk.inj (Option.some.inj howns)
        obtain rfl : source = d := hawaits
        rw [Origin.outcome?, (h.pending_of_waits hw).2]
        rfl
      | act | countDown => cases howns
      | attach | complete => cases hawaits
  · obtain ⟨join, hmem, hjoin⟩ := List.mem_flatMap.1 ho
    obtain ⟨i, hi⟩ := List.getElem?_of_mem hmem
    split at hjoin
    · cases hjoin
    · next hopen =>
      obtain ⟨-, rfl⟩ := Prod.mk.inj (List.mem_singleton.1 hjoin)
      obtain ⟨d, hd, hnone⟩ := h.pending_input hcalm (by simpa using hi) hopen
      cases hout : (Origin.joined join.inputs).outcome? s.network.cells.result? with
      | none => rfl
      | some r =>
        have hsome := isSome_of_joinOf hout _ (List.mem_map_of_mem hd)
        rw [hnone] at hsome
        cases hsome

theorem outcome (h : s.Sound) (hmade : (c, o) ∈ s.made) (ho : o ≠ .promise)
    (hc : s.result? c = some r) : o.outcome? s.result? = some r :=
  (h.owned.settled c o r hmade hc).resolve_left ho

theorem result?_of_calm (h : s.Sound) (hcalm : s.Calm) (hmade : (c, o) ∈ s.made)
    (ho : o ≠ .promise) : s.result? c = o.outcome? s.result? := by
  cases hc : s.result? c with
  | some r => exact (h.outcome hmade ho hc).symm
  | none =>
    have hpending : s.network.cells.IsPending c := ⟨h.owned.lt c o hmade, hc⟩
    have hcount := h.owned.owned c
    rw [if_pos hpending] at hcount
    obtain ⟨⟨c', o'⟩, hmem, rfl⟩ := List.mem_map.1
      (List.count_pos_iff.1 (hcount ▸ Nat.one_pos))
    obtain rfl := h.owned.fits c' o' o hmem hmade
    exact (h.outcome_of_owner hcalm hmem).symm

end Sound

/-! ### Designs -/

/-- The values of a design have been made, in whatever order and however often: this is where they
are. -/
def Builds (s : Crew α) (d : Design α) (place : Nat → Nat) : Prop :=
  ∀ (k : Nat) (o : Origin α), d.origins[k]? = some o → (place k, o.moved place) ∈ s.made

variable {d : Design α} {place : Nat → Nat} {k : Nat}

theorem Builds.of_ne_promise (hb : s.Builds d place) (hk : d.origins[k]? = some o)
    (ho : o ≠ .promise) : (place k, o.moved place) ∈ s.made ∧ o.moved place ≠ .promise :=
  ⟨hb k o hk, fun h => ho (Origin.moved_eq_promise.1 h)⟩

/-- A value that is there is what the design says, given what the promised ones have come to. -/
theorem Sound.design (h : s.Sound) (hb : s.Builds d place) (hk : k < d.origins.length)
    (hr : s.result? (place k) = some r) : d.outcome? (s.result? ∘ place) k = some r := by
  induction k using Nat.strongRecOn generalizing r with
  | ind k ih =>
    obtain ⟨o, ho⟩ : ∃ o, d.origins[k]? = some o := ⟨_, List.getElem?_eq_getElem hk⟩
    by_cases hpromise : o = .promise
    · subst hpromise
      rw [d.outcome?_promise _ ho]
      exact hr
    · obtain ⟨hmade, hmoved⟩ := hb.of_ne_promise ho hpromise
      have hout := h.outcome hmade hmoved hr
      rw [Origin.outcome?_moved] at hout
      -- what it has been made from was there, so it is what the design says
      have hsome := (Origin.isSome_outcome? hpromise _).1 (Option.isSome_of_eq_some hout)
      rw [d.outcome?_eq _ ho hpromise, ← hout]
      refine Origin.outcome?_congr fun c hc => ?_
      obtain ⟨x, hx⟩ := Option.isSome_iff_exists.1 (hsome c hc)
      have hlt := d.acyclic k o ho c hc
      rw [hx]
      exact ih c hlt (Nat.lt_trans hlt hk) hx

theorem Sound.design_of_calm (h : s.Sound) (hcalm : s.Calm) (hb : s.Builds d place)
    (hk : k < d.origins.length) :
    s.result? (place k) = d.outcome? (s.result? ∘ place) k := by
  induction k using Nat.strongRecOn with
  | ind k ih =>
    obtain ⟨o, ho⟩ : ∃ o, d.origins[k]? = some o := ⟨_, List.getElem?_eq_getElem hk⟩
    by_cases hpromise : o = .promise
    · subst hpromise
      rw [d.outcome?_promise _ ho]
      rfl
    · obtain ⟨hmade, hmoved⟩ := hb.of_ne_promise ho hpromise
      rw [h.result?_of_calm hcalm hmade hmoved, Origin.outcome?_moved, d.outcome?_eq _ ho hpromise]
      exact Origin.outcome?_congr fun c hc =>
        ih c (d.acyclic k o ho c hc) (Nat.lt_trans (d.acyclic k o ho c hc) hk)

/-- However a network of values is built, and whenever its promises are kept, each value that is not
promised comes to what its inputs give, not before all promised values that it is made from are there,
and once they are as soon as threads have done what is under way, which ends. It comes to the same in
all runs in which the promised values do. -/
theorem derived_values_confluent (hs : s.Reachable) (hb : s.Builds d place) :
    (∀ k o r, d.origins[k]? = some o → o ≠ .promise → s.result? (place k) = some r →
      Origin.Gives (s.result? ∘ place) o r) ∧
    (∀ k < d.origins.length, (s.result? (place k)).isSome →
      ∀ p, d.Needs p k → (s.result? (place p)).isSome) ∧
    (s.Calm → ∀ k < d.origins.length, (∀ p, d.Needs p k → (s.result? (place p)).isSome) →
      (s.result? (place k)).isSome) ∧
    ((∀ i s', s.act? i = some s' → s'.load < s.load) ∧ (s.Idle → s.Calm)) ∧
    (∀ s' place', Reachable s' → s'.Builds d place' → ∀ k < d.origins.length, ∀ r r',
      (∀ p, d.Needs p k → s.result? (place p) = s'.result? (place' p)) →
      s.result? (place k) = some r → s'.result? (place' k) = some r' → r = r') := by
  have h := hs.sound
  refine ⟨fun k o r hk ho hr => ?_, fun k hk hr => ?_, fun hcalm k hk hp => ?_,
    ⟨fun i s' => load_act h, Idle.calm⟩,
    fun s' place' hs' hb' k hk r r' hp hr hr' => ?_⟩
  · obtain ⟨hmade, hmoved⟩ := hb.of_ne_promise hk ho
    have hout := h.outcome hmade hmoved hr
    rw [Origin.outcome?_moved] at hout
    exact Origin.gives_of_outcome? hout
  · obtain ⟨r, hr⟩ := Option.isSome_iff_exists.1 hr
    exact (d.isSome_outcome? _ hk).1 (Option.isSome_of_eq_some (h.design hb hk hr))
  · rw [h.design_of_calm hcalm hb hk]
    exact (d.isSome_outcome? _ hk).2 hp
  · have hsame := d.outcome?_congr _ hp
    have h₁ := h.design hb hk hr
    have h₂ := hs'.sound.design hb' hk hr'
    exact Option.some.inj (h₁.symm.trans (hsame.trans h₂))

/-! ### A network built before and after its promises are kept -/

def twice : Content Nat → Result Nat
  | .value x => .ok (.value (2 * x))
  | .done => .ok .done

/-- Two promised numbers, the double of the first, and a join that takes the double twice. -/
def doubled : Design Nat where
  origins := [.promise, .promise, .derived 0 twice, .joined [2, 1, 2]]
  acyclic k o hk c hc := by
    match k, hk with
    | 0, hk | 1, hk =>
      obtain rfl := Option.some.inj hk
      cases hc
    | 2, hk =>
      obtain rfl := Option.some.inj hk
      simp_all [Origin.sources]
    | 3, hk =>
      obtain rfl := Option.some.inj hk
      simp only [Origin.sources, List.mem_cons, List.not_mem_nil, or_false] at hc
      omega

def build : List (Action Nat) :=
  [.derive (.value 0) twice, .join [.value 2, .value 1, .value 2]]

def keep : List (Action Nat) := [.drop 1, .settle 0 (.ok 7)]

def alone (rest : List (Action Nat)) : Crew Nat :=
  (enter {} (.all (.promise :: .promise :: rest))).after (List.replicate 30 0)

theorem alone_reachable (rest : List (Action Nat)) : (alone rest).Reachable :=
  .trans (.single (.enter _)) (leads_after _ _)

theorem builds_doubled {s : Crew Nat} (hs : s.made = [(0, .settled (.ok .done)), (1, .promise),
    (2, .promise), (3, .derived 1 twice), (4, .joined [3, 2, 3])]) : s.Builds doubled (· + 1) := by
  intro k o hk
  rw [hs]
  match k, hk with
  | 0, hk | 1, hk | 2, hk | 3, hk =>
    obtain rfl := Option.some.inj hk
    simp [Origin.moved]

/-- A join that was made before its inputs were there fails as one that was made afterwards does. -/
theorem derived_values_confluent_doubled :
    (alone (build ++ keep)).Reachable ∧ (alone (build ++ keep)).Builds doubled (· + 1) ∧
    (alone (build ++ keep)).result? 4 = some (.error .promiseDropped) ∧
    ∀ r, (alone (keep ++ build)).result? 4 = some r → .error .promiseDropped = r := by
  have hfirst : (alone (build ++ keep)).Builds doubled (· + 1) := builds_doubled (by cbv)
  have hlast : (alone (keep ++ build)).Builds doubled (· + 1) := builds_doubled (by cbv)
  have hresult : (alone (build ++ keep)).result? 4 = some (.error .promiseDropped) := by cbv
  obtain ⟨-, -, -, -, hsame⟩ := derived_values_confluent (alone_reachable _) hfirst
  refine ⟨alone_reachable _, hfirst, hresult, fun r hr => ?_⟩
  refine hsame _ _ (alone_reachable _) hlast 3 (by decide) _ r (fun p hp => ?_) hresult hr
  have hpromised := hp.promised
  rcases p with _ | _ | _ | _ | p
  · cbv
  · cbv
  all_goals cases hpromised

end OpFlow.Async.Crew
