import OpFlow.Proofs.Collective.Progress
import OpFlow.Proofs.Reduction.Elements

/-!
All-to-alls. Every member cuts its source into a chunk for each, and gets its own from each. With the
sources as rows of chunks, what the members get are the columns, so no byte is lost, and if all sources
have one length, a second all-to-all brings everything back.
-/
namespace OpFlow

open Machine (Effect)

namespace Bytes

def chunk (n i : Nat) (b : Bytes) : Bytes := (b.drop (i * (b.length / n))).take (b.length / n)

def exchanged (l : List Bytes) : List Bytes :=
  (List.range l.length).map fun i => l.flatMap (chunk l.length i)

variable {l : List Bytes} {b : Bytes} {n i width : Nat}

theorem getElem?_blocks_eq_chunk (hi : i < n) :
    (b.blocks (b.length / n) n)[i]? = some (chunk n i b) := getElem?_blocks hi

theorem flatMap_chunk (h : n ∣ b.length) : ((List.range n).flatMap fun i => chunk n i b) = b := by
  have hchunks : ((List.range n).map fun i => chunk n i b) = b.blocks (b.length / n) n := by
    refine List.ext_getElem? fun i => ?_
    by_cases hi : i < n
    · rw [getElem?_blocks_eq_chunk hi, List.getElem?_map, List.getElem?_range hi, Option.map_some]
    · rw [List.getElem?_eq_none (by simpa using hi), List.getElem?_eq_none (by simpa using hi)]
  rw [List.flatMap_def, hchunks, flatten_blocks_of_length (Nat.mul_div_cancel' h).symm]

theorem length_chunk (h : n ∣ b.length) (hi : i < n) : (chunk n i b).length = b.length / n :=
  length_of_mem_blocks (Nat.mul_div_cancel' h).symm _
    (List.mem_of_getElem? (getElem?_blocks_eq_chunk hi))

@[simp] theorem length_exchanged : (exchanged l).length = l.length := by simp [exchanged]

theorem getElem?_exchanged (hi : i < l.length) :
    (exchanged l)[i]? = some (l.flatMap (chunk l.length i)) := by
  rw [exchanged, List.getElem?_map, List.getElem?_range hi, Option.map_some]

theorem flatten_exchanged_perm (h : ∀ b ∈ l, l.length ∣ b.length) :
    (exchanged l).flatten.Perm l.flatten := by
  have hswap : ((List.range l.length).flatMap fun i => l.flatMap (chunk l.length i)).Perm
      (l.flatMap fun b => (List.range l.length).flatMap fun i => chunk l.length i b) := by
    rw [← Multiset.coe_eq_coe]
    simp only [← Multiset.coe_bind]
    exact Multiset.bind_bind _ _
  rw [exchanged, ← List.flatMap_def]
  refine hswap.trans (.of_eq ?_)
  rw [List.flatMap_def, List.map_congr_left fun b hb => flatMap_chunk (h b hb), List.map_id']

section Uniform

variable (h : ∀ b ∈ l, b.length = l.length * width)
include h

theorem length_chunk_of_uniform (hi : i < l.length) (hb : b ∈ l) :
    (chunk l.length i b).length = width := by
  have hpos : 0 < l.length := List.length_pos_of_mem hb
  rw [length_chunk ⟨width, h b hb⟩ hi, h b hb, Nat.mul_div_cancel_left _ hpos]

theorem length_flatMap_chunk (hi : i < l.length) :
    (l.flatMap (chunk l.length i)).length = l.length * width := by
  rw [List.flatMap_def, length_flatten (List.forall_mem_map.2 fun b hb =>
    length_chunk_of_uniform h hi hb), List.length_map]

theorem chunk_flatMap_chunk {j : Nat} (hi : i < l.length) (hj : l[j]? = some b) :
    chunk l.length j (l.flatMap (chunk l.length i)) = chunk l.length i b := by
  obtain ⟨hlt, -⟩ := List.getElem?_eq_some_iff.1 hj
  have hblocks : blocks width l.length (l.flatMap (chunk l.length i)) =
      l.map (chunk l.length i) := by
    have := blocks_flatten (List.forall_mem_map.2 fun b hb => length_chunk_of_uniform h hi hb)
    rwa [List.length_map, ← List.flatMap_def] at this
  have hwidth : (l.flatMap (chunk l.length i)).length / l.length = width := by
    rw [length_flatMap_chunk h hi, Nat.mul_div_cancel_left _ (Nat.zero_lt_of_lt hlt)]
  refine Option.some.inj ?_
  rw [← getElem?_blocks_eq_chunk hlt, hwidth, hblocks, List.getElem?_map, hj, Option.map_some]

theorem exchanged_exchanged : exchanged (exchanged l) = l := by
  refine List.ext_getElem? fun j => ?_
  by_cases hj : j < l.length
  · obtain ⟨b, hb⟩ : ∃ b, l[j]? = some b := ⟨_, List.getElem?_eq_getElem hj⟩
    rw [getElem?_exchanged (length_exchanged.symm ▸ hj), length_exchanged, hb]
    refine congrArg some ?_
    calc (exchanged l).flatMap (chunk l.length j)
      _ = (List.range l.length).flatMap fun i =>
            chunk l.length j (l.flatMap (chunk l.length i)) := by rw [exchanged, List.flatMap_map]
      _ = (List.range l.length).flatMap fun i => chunk l.length i b := by
        rw [List.flatMap_def, List.flatMap_def, List.map_congr_left fun i hi =>
          chunk_flatMap_chunk h (List.mem_range.1 hi) hb]
      _ = b := flatMap_chunk ⟨width, h b (List.mem_of_getElem? hb)⟩
  · rw [List.getElem?_eq_none (by simpa using hj), List.getElem?_eq_none (by simpa using hj)]

end Uniform

end Bytes

namespace Party

variable {P : Party} {r : Nat}

variable (P r) in
def allotted : Bytes := P.group.flatMap fun k => (P.input k).chunk P.group.length (P.rank r)

variable (P) in
/-- What a member has in its destination. -/
def held (s : Bout) (r : Nat) : Bytes :=
  (((s.platform.arenaOf (P.host r)).read (P.destination r)).toOption).getD []

theorem rank_lt (hr : r ∈ P.group) : P.rank r < P.group.length := List.idxOf_lt_length_iff.2 hr

theorem received_of_allToAll (hexchange : P.exchange = .allToAll) (hr : r ∈ P.group) :
    P.received r = .ok (some (P.allotted r)) := by
  have hdealt : P.dealt r = .allToAll := by rw [dealt, Collective.exchangeIn, op, hexchange]
  have hbrought : ∀ k, (P.brought k)[P.rank r]?.getD [] =
      (P.input k).chunk P.group.length (P.rank r) := fun k => by
    rw [brought, if_pos hexchange, Bytes.getElem?_blocks_eq_chunk (rank_lt hr)]
    rfl
  rw [received, hdealt, Exchange.result, contributions, List.flatMap_map, allotted]
  simp only [hbrought]

theorem IsWellFormed.map_allotted (hP : P.IsWellFormed) :
    P.group.map P.allotted = Bytes.exchanged (P.group.map P.input) := by
  have hranks : P.group.map P.rank = List.range P.group.length := Collective.map_idxOf_self hP.nodup
  rw [Bytes.exchanged, List.length_map, ← hranks, List.map_map]
  refine List.map_congr_left fun r _ => ?_
  rw [Function.comp_apply, List.flatMap_map, allotted]

theorem IsWellFormed.length_dvd_input (hP : P.IsWellFormed) (hexchange : P.exchange = .allToAll) :
    ∀ b ∈ P.group.map P.input, (P.group.map P.input).length ∣ b.length := by
  refine List.forall_mem_map.2 fun r hr => ?_
  rw [List.length_map, hP.length_input hr]
  exact hP.even hexchange r hr

section Complete

variable {s : Bout} (hP : P.IsWellFormed) (hexchange : P.exchange = .allToAll)
  (hs : P.Reaches s) (hdone : P.IsComplete s)
include hP hexchange hs hdone

theorem IsComplete.held_of_fits (hr : r ∈ P.group)
    (hfits : (P.allotted r).length = (P.destination r).size) :
    P.held s r = P.allotted r := by
  have hread := ((hP.final_of_some hr (received_of_allToAll hexchange hr)).1 hfits).2
  rw [held, hdone.arenaOf_eq hP hs hr, hread]
  rfl

end Complete

section Uniform

variable {size : Nat} (hP : P.IsWellFormed) (hexchange : P.exchange = .allToAll)
  (hsource : ∀ r ∈ P.group, (P.source r).size = size)
include hP hexchange hsource

theorem IsWellFormed.exists_width : ∃ width,
    ∀ b ∈ P.group.map P.input, b.length = (P.group.map P.input).length * width := by
  refine ⟨size / P.group.length, List.forall_mem_map.2 fun r hr => ?_⟩
  rw [List.length_map, hP.length_input hr, hsource r hr,
    Nat.mul_div_cancel' (hsource r hr ▸ hP.even hexchange r hr)]

theorem IsWellFormed.length_allotted (hr : r ∈ P.group) : (P.allotted r).length = size := by
  obtain ⟨width, huniform⟩ := hP.exists_width hexchange hsource
  have hlength := Bytes.length_flatMap_chunk huniform ((List.length_map P.input).symm ▸ rank_lt hr)
  rw [← huniform _ (List.mem_map_of_mem hr), hP.length_input hr, hsource r hr] at hlength
  rwa [List.flatMap_map, List.length_map] at hlength

theorem IsWellFormed.allotted_of_allotted {Q : Party} (hQ : Q.IsWellFormed)
    (hgroup : Q.group = P.group) (hinput : ∀ r ∈ P.group, Q.input r = P.allotted r)
    (hr : r ∈ P.group) : Q.allotted r = P.input r := by
  obtain ⟨width, huniform⟩ := hP.exists_width hexchange hsource
  have hback : P.group.map Q.allotted = P.group.map P.input := by
    calc P.group.map Q.allotted
      _ = Bytes.exchanged (P.group.map Q.input) := hgroup ▸ hQ.map_allotted
      _ = Bytes.exchanged (Bytes.exchanged (P.group.map P.input)) := by
        rw [List.map_congr_left hinput, hP.map_allotted]
      _ = P.group.map P.input := Bytes.exchanged_exchanged huniform
  exact List.map_inj_left.1 hback r hr

end Uniform

/-- An all-to-all transposes. Its members get to the end of it whatever happens, and when they have, in
any order, the call of each has ended once; and each holds the chunks at its rank, in the order of the
ranks that they come from, or is refused, and nobody else, if these do not fit. If nobody is refused, no
byte is lost. If all sources have one length, and the destinations too, nobody is; and after another
all-to-all of what has been got, in any order and wherever it is put, everybody has what was in its
source. -/
theorem all_to_all_transposes (hP : P.IsWellFormed) (hexchange : P.exchange = .allToAll) :
    P.Inevitably P.IsComplete P.start ∧
    ∀ s, P.Reaches s → P.IsComplete s → ∃ outcome : Nat → Outcome,
      s.asked.Perm (P.group.map fun r => .settle (P.call r) (outcome r)) ∧
      (∀ r ∈ P.group,
        ((P.allotted r).length = (P.destination r).size → outcome r = .ok () ∧
          (s.platform.arenaOf (P.host r)).read (P.destination r) = .ok (P.allotted r)) ∧
        ((P.allotted r).length ≠ (P.destination r).size →
          outcome r = .error (.invalidArgument ("cannot write " ++
            toString (P.allotted r).length ++ " bytes into " ++ (P.destination r).describe)) ∧
          s.platform.arenaOf (P.host r) = P.arena r)) ∧
      ((∀ r ∈ P.group, outcome r = .ok ()) →
        (P.group.flatMap (P.held s)).Perm (P.group.flatMap P.input)) ∧
      ∀ size, (∀ r ∈ P.group, (P.source r).size = size ∧ (P.destination r).size = size) →
        (∀ r ∈ P.group, outcome r = .ok ()) ∧
        ∀ {Q : Party} {s' : Bout}, Q.IsWellFormed → Q.exchange = .allToAll → Q.group = P.group →
          (∀ r ∈ P.group, (Q.destination r).size = size ∧ (Q.arena r).read (Q.source r) =
            (s.platform.arenaOf (P.host r)).read (P.destination r)) →
          Q.Reaches s' → Q.IsComplete s' → ∀ r ∈ P.group,
            (s'.platform.arenaOf (Q.host r)).read (Q.destination r) =
              (P.arena r).read (P.source r) := by
  refine ⟨hP.inevitably, fun s hs hdone => ?_⟩
  have hfinal := fun r (hr : r ∈ P.group) => hP.final_of_some hr (received_of_allToAll hexchange hr)
  have harena := fun r (hr : r ∈ P.group) => hdone.arenaOf_eq hP hs hr
  refine ⟨P.outcome, (hdone.ended hP hs).1, fun r hr => harena r hr ▸ hfinal r hr, fun hok => ?_,
    fun size hsize => ?_⟩
  · have hheld : ∀ r ∈ P.group, P.held s r = P.allotted r := fun r hr => by
      refine hdone.held_of_fits hP hexchange hs hr (by_contra fun hne => ?_)
      cases (hok r hr).symm.trans ((hfinal r hr).2 hne).1
    rw [List.flatMap_def, List.map_congr_left hheld, hP.map_allotted, List.flatMap_def]
    exact Bytes.flatten_exchanged_perm (hP.length_dvd_input hexchange)
  · have hfits : ∀ r ∈ P.group, (P.allotted r).length = (P.destination r).size := fun r hr =>
      (hP.length_allotted hexchange (fun k hk => (hsize k hk).1) hr).trans (hsize r hr).2.symm
    refine ⟨fun r hr => ((hfinal r hr).1 (hfits r hr)).1, fun {Q s'} hQ hexchange' hgroup hagain hs'
      hdone' r hr => ?_⟩
    have hinput : ∀ k ∈ P.group, Q.input k = P.allotted k := fun k hk => by
      rw [input, (hagain k hk).2, harena k hk, ((hfinal k hk).1 (hfits k hk)).2]
      rfl
    have hback := hP.allotted_of_allotted hexchange (fun k hk => (hsize k hk).1) hQ hgroup hinput hr
    have hr' : r ∈ Q.group := hgroup ▸ hr
    have hfits' : (Q.allotted r).length = (Q.destination r).size := by
      rw [hback, hP.length_input hr, (hsize r hr).1, (hagain r hr).1]
    rw [hdone'.arenaOf_eq hQ hs' hr', hP.read_source hr, ← hback]
    exact ((hQ.final_of_some hr' (received_of_allToAll hexchange' hr')).1 hfits').2

variable (P) in
def again (s : Bout) : Party := { P with platform := s.platform, source := P.destination }

/-- A party that has ended can meet again where nobody has come in the meantime. -/
theorem IsWellFormed.again {s : Bout} (hP : P.IsWellFormed) (hexchange : P.exchange = .allToAll)
    (hs : P.Reaches s) (hdone : P.IsComplete s)
    (heven : ∀ r ∈ P.group, P.group.length ∣ (P.destination r).size)
    (hfits : ∀ r ∈ P.group, (P.allotted r).length = (P.destination r).size)
    (hvacant : (P.desk s.platform).group? P.key = none) : (P.again s).IsWellFormed := by
  have hholds : ∀ r ∈ P.group, ((P.again s).arena r).Holds (P.destination r) := fun r hr =>
    Arena.exists_read_iff.1 ⟨P.allotted r, (congrArg (·.read (P.destination r))
      (hdone.arenaOf_eq hP hs hr)).trans
        ((hP.final_of_some hr (received_of_allToAll hexchange hr)).1 (hfits r hr)).2⟩
  refine ⟨hP.assignment, hP.computation, hP.groups, hP.group, fun r hr => ?_, hP.hosts,
    fun r hr => ?_, hholds, fun _ => heven, hholds, hP.small, hvacant⟩
  · obtain ⟨label, haccepted⟩ := hP.accepted r hr
    refine ⟨label, ?_⟩
    rw [Collective.create, op, hexchange] at haccepted
    split at haccepted
    · cases haccepted
    · next hkind =>
      simp only [Collective.create, op, Party.again, hexchange]
      exact if_neg hkind
  · obtain ⟨state, ctx, hstate, hctx⟩ := hP.context r hr
    refine ⟨{ state with arena := (P.final r).1 }, ctx, ?_, hctx⟩
    exact ((hdone.ended hP hs).2 r hr).trans (congrArg (Option.map _) hstate)

def shuffle : Party :=
  scattered .allToAll (fun r => (List.range 6).map fun i => UInt8.ofNat (10 * r + i)) fun _ => 6

def shuffled (P : Party) : Bout :=
  P.follow P.start [.launch 4, .perform 0, .launch 0, .launch 2, .perform 0, .perform 1,
    .perform 1, .perform 1, .perform 1, .perform 1]

theorem all_to_all_transposes_twice : shuffle.IsWellFormed ∧ shuffle.Reaches shuffle.shuffled ∧
    shuffle.IsComplete shuffle.shuffled ∧
    (shuffle.shuffled.platform.arenaOf 2).read ⟨1, 0, 6⟩ = .ok [20, 21, 0, 1, 40, 41] ∧
    (shuffle.shuffled.platform.arenaOf 0).read ⟨1, 0, 6⟩ = .ok [22, 23, 2, 3, 42, 43] ∧
    (shuffle.shuffled.platform.arenaOf 4).read ⟨1, 0, 6⟩ = .ok [24, 25, 4, 5, 44, 45] ∧
    ((shuffle.again shuffle.shuffled).shuffled.platform.arenaOf 4).read ⟨1, 0, 6⟩ =
      .ok [40, 41, 42, 43, 44, 45] := by
  have hP : shuffle.IsWellFormed := isWellFormed_scattered (fun _ h => by cases h)
    (fun _ r _ => ⟨2, by rw [List.length_map, List.length_range]⟩) fun _ => by decide
  have hs : shuffle.Reaches shuffle.shuffled := Reaches.follow .refl _
  have hdone : shuffle.IsComplete shuffle.shuffled := by decide +kernel
  have hQ : (shuffle.again shuffle.shuffled).IsWellFormed :=
    hP.again rfl hs hdone (fun _ _ => ⟨2, rfl⟩) (by decide) (by decide +kernel)
  have hs' : (shuffle.again shuffle.shuffled).Reaches (shuffle.again shuffle.shuffled).shuffled :=
    Reaches.follow .refl _
  have hdone' : (shuffle.again shuffle.shuffled).IsComplete
      (shuffle.again shuffle.shuffled).shuffled := by decide +kernel
  obtain ⟨outcome, -, hmembers, -, hsize⟩ := (all_to_all_transposes hP rfl).2 _ hs hdone
  refine ⟨hP, hs, hdone, ?_, ?_, ?_, ?_⟩
  · exact ((hmembers 2 (by decide)).1 (by decide)).2.trans (by decide)
  · exact ((hmembers 0 (by decide)).1 (by decide)).2.trans (by decide)
  · exact ((hmembers 4 (by decide)).1 (by decide)).2.trans (by decide)
  · exact ((hsize 6 (by decide)).2 hQ rfl rfl (fun r _ => ⟨rfl, rfl⟩) hs' hdone' 4
      (by decide)).trans (by decide)

end Party

end OpFlow
