import OpFlow.Proofs.Collective.Progress

/-!
Permutes. The pairs of a permute name replicas, and every member translates them into ranks of its
group by way of the devices, leaving out those that lead into the group or out of it. What arrives is
the same as if the replicas had been looked up directly, in whatever order the group lists them.
-/
namespace OpFlow

open Machine (Effect)

namespace Exchange

theorem nodup_of_repeatedTarget? {pairs : List (Nat × Nat)} {seen : List Nat}
    (h : repeatedTarget? seen pairs = none) :
    (pairs.map Prod.snd).Nodup ∧ ∀ t ∈ pairs.map Prod.snd, t ∉ seen := by
  induction pairs generalizing seen with
  | nil => simp
  | cons pair pairs ih =>
    obtain ⟨k, t⟩ := pair
    rw [repeatedTarget?] at h
    split at h
    · cases h
    · next ht =>
      obtain ⟨hnodup, hfresh⟩ := ih h
      refine ⟨List.nodup_cons.2 ⟨fun hmem => hfresh t hmem List.mem_cons_self, hnodup⟩, ?_⟩
      intro u hu hseen
      rcases List.mem_cons.1 hu with rfl | hu
      · exact ht (List.contains_iff_mem.2 hseen)
      · exact hfresh u hu (List.mem_cons_of_mem _ hseen)

end Exchange

namespace Party

variable {P : Party} {pairs : List (Nat × Nat)} {r t k : Nat}

/-- A member's device has the rank of the member, and other devices have none. -/
theorem IsWellFormed.rankOf? (hP : P.IsWellFormed) (i k : Nat) :
    Collective.rankOf? P.assignment ⟨P.devices, i, P.computation⟩ k =
      if k ∈ P.group then some (P.rank k) else none := by
  have hget : ∀ k ∈ P.group,
      P.assignment.get? k P.computation = some (P.assignment.deviceAt P.computation k) :=
    fun k hk => hP.isGrid.get?_eq_deviceAt (hP.lt hk) hP.computation
  -- devices of different members differ
  have hinj : ∀ k ∈ P.group, ∀ j, P.assignment.get? j P.computation =
      some (P.assignment.deviceAt P.computation k) → j = k := fun k hk j hj =>
    (hP.isGrid.get?_inj hj (hget k hk)).1
  rw [Collective.rankOf?]
  split
  · next hk =>
    have hself : P.devices[P.rank k]? = some (P.assignment.deviceAt P.computation k) := by
      rw [devices, List.getElem?_map, rank, List.getElem?_idxOf hk, Option.map_some]
    obtain ⟨hlt, hself⟩ := List.getElem?_eq_some_iff.1 hself
    have hnodup : P.devices.Nodup := hP.nodup.map_on fun j hj j' hj' heq =>
      hinj j' hj' j (heq ▸ hget j hj)
    have hmem : P.assignment.deviceAt P.computation k ∈ P.devices := List.mem_map_of_mem hk
    rw [hget k hk, Option.bind_some, Collective.idxOf?_of_mem hmem, ← hself,
      hnodup.idxOf_getElem]
  · next hk =>
    cases hd : P.assignment.get? k P.computation with
    | none => rfl
    | some d =>
      rw [Option.bind_some, List.idxOf?_eq_none_iff]
      intro hmem
      obtain ⟨j, hj, rfl⟩ := List.mem_map.1 hmem
      exact hk (hinj j hj k hd ▸ hj)

theorem IsWellFormed.source_unique (hP : P.IsWellFormed) (hexchange : P.exchange = .permute pairs)
    (ht : t ∈ P.group) {k' : Nat} (h : (k, t) ∈ pairs) (h' : (k', t) ∈ pairs) : k = k' := by
  obtain ⟨label, haccepted⟩ := hP.accepted t ht
  have hnone : Exchange.repeatedTarget? [] pairs = none := by
    rw [Collective.create, op, hexchange] at haccepted
    split at haccepted
    · cases haccepted
    · dsimp only at haccepted
      split at haccepted
      · cases haccepted
      · assumption
  have hnodup := (Exchange.nodup_of_repeatedTarget? hnone).1
  exact congrArg Prod.fst (List.inj_on_of_nodup_map hnodup h h' rfl)

/-- Where the exchange in terms of ranks finds the source of a member. -/
theorem IsWellFormed.find?_ranked (hP : P.IsWellFormed) (hexchange : P.exchange = .permute pairs)
    (ht : t ∈ P.group) : ∃ ranked, P.dealt t = .permute ranked ∧
      (∀ k ∈ P.group, (k, t) ∈ pairs →
        ranked.find? (fun p => p.2 == P.rank t) = some (P.rank k, P.rank t)) ∧
      ((∀ k ∈ P.group, (k, t) ∉ pairs) → ranked.find? (fun p => p.2 == P.rank t) = none) := by
  refine ⟨_, by rw [dealt, Collective.exchangeIn, op, hexchange], ?_⟩
  obtain ⟨ranked, hranked⟩ : ∃ ranked, (pairs.filterMap fun p => do
    return (← Collective.rankOf? P.assignment ⟨P.devices, P.rank t, P.computation⟩ p.1,
      ← Collective.rankOf? P.assignment ⟨P.devices, P.rank t, P.computation⟩ p.2)) = ranked := ⟨_, rfl⟩
  -- the pairs within the group are left
  have hmem : ∀ p, p ∈ ranked ↔ ∃ k ∈ P.group, ∃ j ∈ P.group, (k, j) ∈ pairs ∧
      p = (P.rank k, P.rank j) := fun p => by
    rw [← hranked, List.mem_filterMap]
    constructor
    · rintro ⟨⟨k, j⟩, hpair, heq⟩
      simp only [hP.rankOf?] at heq
      split at heq <;> split at heq <;> cases heq
      exact ⟨k, by assumption, j, by assumption, hpair, rfl⟩
    · rintro ⟨k, hk, j, hj, hpair, rfl⟩
      exact ⟨(k, j), hpair, by simp [hP.rankOf?, hk, hj]⟩
  have hfound : ∀ p, ranked.find? (fun p => p.2 == P.rank t) = some p →
      ∃ k ∈ P.group, (k, t) ∈ pairs ∧ p = (P.rank k, P.rank t) := fun p hp => by
    obtain ⟨k, hk, j, hj, hpair, rfl⟩ := (hmem p).1 (List.mem_of_find?_eq_some hp)
    have hrank : P.rank j = P.rank t := by simpa using List.find?_some hp
    obtain rfl : j = t := (List.idxOf_inj hj).1 hrank
    exact ⟨k, hk, hpair, rfl⟩
  rw [hranked]
  refine ⟨fun k hk hpair => ?_, fun hnone => ?_⟩
  · cases hfind : ranked.find? fun p => p.2 == P.rank t with
    | none =>
      have := List.find?_eq_none.1 hfind _ ((hmem _).2 ⟨k, hk, t, ht, hpair, rfl⟩)
      simp at this
    | some p =>
      obtain ⟨k', -, hpair', rfl⟩ := hfound p hfind
      rw [hP.source_unique hexchange ht hpair hpair']
  · cases hfind : ranked.find? fun p => p.2 == P.rank t with
    | none => rfl
    | some p =>
      obtain ⟨k, hk, hpair, -⟩ := hfound p hfind
      exact (hnone k hk hpair).elim

theorem IsWellFormed.received_of_pair (hP : P.IsWellFormed) (hexchange : P.exchange = .permute pairs)
    (ht : t ∈ P.group) (hk : k ∈ P.group) (hpair : (k, t) ∈ pairs) :
    P.received t = .ok (some (P.input k)) := by
  obtain ⟨ranked, hdealt, hfind, -⟩ := hP.find?_ranked hexchange ht
  have hbrought : P.brought k = [P.input k] := by rw [brought, hexchange, if_neg (by simp)]
  rw [received, hdealt, Exchange.result, hfind k hk hpair]
  simp only [getElem?_contributions hk, hbrought, List.flatten_singleton]

theorem IsWellFormed.received_of_no_pair (hP : P.IsWellFormed)
    (hexchange : P.exchange = .permute pairs) (ht : t ∈ P.group)
    (hnone : ∀ k ∈ P.group, (k, t) ∉ pairs) : P.received t = .ok none := by
  obtain ⟨ranked, hdealt, -, hfind⟩ := hP.find?_ranked hexchange ht
  rw [received, hdealt, Exchange.result, hfind hnone]

/-- A permute goes by replicas. Its members get to the end of it whatever happens, and when they have,
in any order, the call of each has ended once; and each holds what the member has with which it is
paired, or is refused, and nobody else, if that does not fit; and it holds zeros if no member is paired
with it. -/
theorem permute_by_replicas (hP : P.IsWellFormed) (hexchange : P.exchange = .permute pairs) :
    P.Inevitably P.IsComplete P.start ∧
    ∀ s, P.Reaches s → P.IsComplete s → ∃ outcome : Nat → Outcome,
      s.asked.Perm (P.group.map fun t => .settle (P.call t) (outcome t)) ∧
      ∀ t ∈ P.group,
        (∀ k ∈ P.group, (k, t) ∈ pairs →
          ((P.source k).size = (P.destination t).size → outcome t = .ok () ∧
            (s.platform.arenaOf (P.host t)).read (P.destination t) =
              (P.arena k).read (P.source k)) ∧
          ((P.source k).size ≠ (P.destination t).size →
            outcome t = .error (.invalidArgument ("cannot write " ++ toString (P.source k).size ++
              " bytes into " ++ (P.destination t).describe)) ∧
            s.platform.arenaOf (P.host t) = P.arena t)) ∧
        ((∀ k ∈ P.group, (k, t) ∉ pairs) → outcome t = .ok () ∧
          (s.platform.arenaOf (P.host t)).read (P.destination t) =
            .ok (List.replicate (P.destination t).size 0)) := by
  refine ⟨hP.inevitably, fun s hs hdone => ?_⟩
  refine ⟨P.outcome, (hdone.ended hP hs).1, fun t ht => ⟨fun k hk hpair => ?_, fun hnone => ?_⟩⟩
  · have hreceived := hP.received_of_pair hexchange ht hk hpair
    rw [hdone.arenaOf_eq hP hs ht, hP.read_source hk, ← hP.length_input hk]
    exact hP.final_of_some ht hreceived
  · rw [hdone.arenaOf_eq hP hs ht]
    exact hP.final_of_none ht (hP.received_of_no_pair hexchange ht hnone)

def relay : Party :=
  scattered (.permute [(0, 2), (1, 0), (2, 4)]) (fun r => [UInt8.ofNat r, 7])
    fun r => if r = 4 then 3 else 2

def relayed : Bout :=
  relay.follow relay.start [.launch 4, .perform 0, .launch 0, .launch 2, .perform 0, .perform 1,
    .perform 1, .perform 1, .perform 1, .perform 1]

theorem permute_by_replicas_relay : relay.IsWellFormed ∧ relay.Reaches relayed ∧
    relay.IsComplete relayed ∧ ∃ outcome : Nat → Outcome,
      relayed.asked.Perm ([2, 0, 4].map fun t => .settle (relay.call t) (outcome t)) ∧
      (outcome 2 = .ok () ∧ (relayed.platform.arenaOf 2).read ⟨1, 0, 2⟩ = .ok [0, 7]) ∧
      (outcome 0 = .ok () ∧ (relayed.platform.arenaOf 0).read ⟨1, 0, 2⟩ = .ok [0, 0]) ∧
      outcome 4 = .error (.invalidArgument "cannot write 2 bytes into slice#1[0..3]") := by
  have hP : relay.IsWellFormed := isWellFormed_scattered
    (fun pairs h => by obtain rfl := Exchange.permute.inj h; decide) (fun h => by cases h)
    fun r => by split <;> decide
  have hs : relay.Reaches relayed := Reaches.follow .refl _
  have hdone : relay.IsComplete relayed := by decide +kernel
  obtain ⟨outcome, hended, hmembers⟩ := (permute_by_replicas hP rfl).2 relayed hs hdone
  refine ⟨hP, hs, hdone, outcome, hended, ?_, ?_, ?_⟩
  · obtain ⟨hend, hread⟩ := ((hmembers 2 (by decide)).1 0 (by decide) (by decide)).1 rfl
    exact ⟨hend, hread.trans (by decide)⟩
  · exact (hmembers 0 (by decide)).2 (by decide)
  · refine (((hmembers 4 (by decide)).1 2 (by decide) (by decide)).2 (by decide)).1.trans ?_
    decide

end Party

end OpFlow
