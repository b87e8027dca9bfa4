import OpFlow.Proofs.Async.OwnershipSteps

/-!
Every step keeps what is referred to in its place, and every join counts the inputs that are missing.
-/
namespace OpFlow.Async.NetworkOf

variable {α : Type} {n n' : NetworkOf α (Ticketed α)} {free free' others : List (Job α)}
  {made : Made α} {c d i t : Nat} {j k : Job α} {turn : Turn α (Ticketed α)}
  {notes : List (Event α)}

/-! ### Places -/

theorem mem_inputs : c ∈ n.inputs i ↔ ∃ join, n.joins[i]? = some join ∧ c ∈ join.inputs := by
  rw [inputs]
  cases n.joins[i]? <;> simp

namespace Placed

theorem todo (hp : n.Placed free) (hruns : ∀ k ∈ free', n.Runs k) : n.Placed free' :=
  { hp with runs := hruns }

theorem perm (hp : n.Placed free) (hperm : free'.Perm free) : n.Placed free' :=
  hp.todo fun k hk => hp.runs k (hperm.mem_iff.1 hk)

theorem of_named (hp : n.Placed free) (hc : c < n.cells.size) (hn : n.NamedAs n' c) :
    n'.Placed free where
  done := by rw [hn.cells]; exact hp.done
  quiet := by rw [hn.cells]; exact hp.quiet
  named d hd := by
    rw [hn.cells]
    rcases hn.names hd with hd | rfl
    · exact hp.named d hd
    · exact hc
  kept i hi := Nat.lt_of_lt_of_le (hp.kept i (hn.promises ▸ hi)) hn.size_le
  nodup := by rw [hn.promises]; exact hp.nodup
  inputs i := by rw [NetworkOf.inputs, hn.joins, hn.cells]; exact hp.inputs i
  runs k hk := (hp.runs k hk).mono (Nat.le_of_eq (congrArg Array.size hn.cells.symm))
    (by rw [hn.cells]; exact fun _ _ h => h)
  awaits := by rw [hn.cells]; exact hp.awaits

theorem note (hp : n.Placed free) (text : String) : (n.note text).Placed free :=
  ⟨hp.done, hp.quiet, fun d hd => hp.named d (names_of_handles rfl rfl hd), hp.kept, hp.nodup,
    hp.inputs, fun k hk => (hp.runs k hk).mono (Nat.le_refl _) fun _ _ h => h, hp.awaits⟩

theorem withPromises (hp : n.Placed free) {promises : List Nat}
    (hkept : ∀ i ∈ promises, i < n.handles.size) (hnodup : promises.Nodup) :
    ({ n with promises } : NetworkOf α (Ticketed α)).Placed free :=
  ⟨hp.done, hp.quiet, fun d hd => hp.named d (names_of_handles rfl rfl hd), hkept, hnodup, hp.inputs,
    fun k hk => (hp.runs k hk).mono (Nat.le_refl _) fun _ _ h => h, hp.awaits⟩

theorem withJoins (hp : n.Placed free) (joins : Array Join)
    (hinputs : ∀ (i : Nat) (join : Join), joins[i]? = some join → ∀ c ∈ join.inputs, c < n.cells.size) :
    ({ n with joins } : NetworkOf α (Ticketed α)).Placed free :=
  ⟨hp.done, hp.quiet, fun d hd => hp.named d (names_of_handles rfl rfl hd), hp.kept, hp.nodup,
    fun i => by
      simp only [NetworkOf.inputs]
      cases hi : joins[i]? with
      | none => simp
      | some join => simpa using hinputs i join hi,
    fun k hk => (hp.runs k hk).mono (Nat.le_refl _) fun _ _ h => h, hp.awaits⟩

theorem withCell (hp : n.Placed free) (x : Option (Result α)) : (n.withCell x).Placed free where
  done := by
    have hlt := Cells.lt_size_of_result? hp.done
    rw [NetworkOf.withCell, Cells.result?_add, if_neg (by omega), hp.done]
  quiet d hd := by
    rw [NetworkOf.withCell, Cells.waiters_add]
    by_cases hlt : d < n.cells.size
    · refine hp.quiet d ?_
      rwa [NetworkOf.withCell, Cells.isSettled, Cells.result?_add, if_neg (by omega)] at hd
    · exact Cells.waiters_of_size_le (Nat.le_of_not_lt hlt)
  named d hd := by
    have := hp.named d (names_of_handles rfl rfl hd)
    rw [NetworkOf.withCell, Cells.size_add]
    omega
  kept := hp.kept
  nodup := hp.nodup
  inputs i d hd := by
    have := hp.inputs i d hd
    rw [NetworkOf.withCell, Cells.size_add]
    omega
  runs k hk := (hp.runs k hk).mono (by simp [NetworkOf.withCell]) fun d r hd => by
    have hlt := Cells.lt_size_of_result? hd
    rw [NetworkOf.withCell, Cells.result?_add, if_neg (by omega), hd]
  awaits d w hw := by
    rw [NetworkOf.withCell, Cells.waiters_add] at hw
    exact hp.awaits d w hw

/-- A job is registered with a pending cell. -/
theorem register (hp : n.Placed free) (hc : n.cells.IsPending c) (hk : k.Awaits c) :
    ({ n with cells := n.cells.register c (t, k) } : NetworkOf α (Ticketed α)).Placed free where
  done := (Cells.result?_register ..).trans hp.done
  quiet d hd := by
    rw [Cells.isSettled, Cells.result?_register] at hd
    rw [Cells.waiters_register hc.1, if_neg, hp.quiet d hd]
    rintro rfl
    rw [hc.2] at hd
    cases hd
  named d hd := by
    rw [Cells.size_register]
    exact hp.named d (names_of_handles rfl rfl hd)
  kept := hp.kept
  nodup := hp.nodup
  inputs i d hd := by
    rw [Cells.size_register]
    exact hp.inputs i d hd
  runs k hk := (hp.runs k hk).mono (by simp) fun d r hd => (Cells.result?_register ..).trans hd
  awaits d w hw := by
    rcases Cells.mem_waiters_register _ hw with hw | ⟨rfl, rfl⟩
    · exact hp.awaits d w hw
    · exact hk

/-- A cell is settled, and what waited for it is to be done. -/
theorem settle (hp : n.Placed free) (c : Nat) (r : Result α) :
    (n.settleCell c r).network.Placed ((n.settleCell c r).free free) := by
  by_cases hc : n.cells.IsPending c
  · have hresult := Cells.result?_settle hc r
    have hmono : ∀ d x, n.cells.result? d = some x → (n.cells.settle c r).1.result? d = some x :=
      fun d x hd => by
        rw [hresult, if_neg, hd]
        rintro rfl
        rw [hc.2] at hd
        cases hd
    refine ⟨hmono 0 _ hp.done, fun d hd => ?_, fun d hd => ?_, hp.kept, hp.nodup, fun i d hd => ?_,
      fun k hk => ?_, fun d w hw => ?_⟩
    · refine (Cells.waiters_settle hc r d).trans ?_
      split
      · rfl
      · next hdc =>
        rw [settleCell, Cells.isSettled, hresult, if_neg hdc] at hd
        exact hp.quiet d hd
    · exact (Cells.size_settle ..).symm ▸ hp.named d (names_of_handles rfl rfl hd)
    · exact (Cells.size_settle ..).symm ▸ hp.inputs i d hd
    · rcases List.mem_append.1 hk with hk | hk
      · replace hk := (List.mem_append.1 hk).resolve_right List.not_mem_nil
        obtain ⟨w, hw, rfl⟩ := List.mem_map.1 hk
        refine .of_awaits (hp.awaits c w (Cells.mem_waiters_of_mem_settle _ hw)) ?_
        exact Cells.isSettled_iff.2 ⟨r, (hresult c).trans (if_pos rfl)⟩
      · exact (hp.runs k hk).mono (Nat.le_of_eq (Cells.size_settle ..).symm) hmono
    · exact hp.awaits d w (Cells.mem_waiters_settle _ hw).1
  · have hsettle : n.settleCell c r = { network := n } := by
      rw [settleCell, Cells.settle_of_not_isPending hc]
    rw [hsettle]
    exact hp

end Placed

/-! ### Counts -/

theorem join?_of_claim? (h : k.claim? = some (i, c)) : k.join? = some i := by
  cases k with
  | attach d k =>
    obtain ⟨i', hi', heq⟩ := Option.map_eq_some_iff.1 h
    obtain ⟨rfl, -⟩ := Prod.mk.inj heq
    exact hi'
  | act | derive | countDown | complete => cases h

theorem claim?_of_awaits (h : k.Awaits c) : k.claim? = none := by
  cases k with
  | act | derive | countDown => rfl
  | attach | complete => cases h

theorem claim?_of_registers (h : n.Registers j c k) : j.claim? = k.join?.map (·, c) := by
  rcases h with rfl | ⟨h, next, rfl, ⟨rfl, -⟩ | ⟨rfl, -⟩⟩ <;> rfl

/-- Once the last input of a join is counted down, all are settled. -/
theorem Counted.all_settled (h : n.Counted (.countDown i :: others))
    (hp : n.Placed (.countDown i :: others)) {join : Join} (hj : n.joins[i]? = some join)
    (hone : join.remaining = 1) : join.inputs.all n.cells.isSettled := by
  have hinputs : n.inputs i = join.inputs := by rw [NetworkOf.inputs, hj]; rfl
  have hcount := h.counted i
  rw [remaining, hj, Option.map_some, Option.getD_some, hone, work, List.cons_append,
    List.filterMap_cons] at hcount
  -- nothing else counts for the join
  have hrest : i ∉ (others ++ n.cells.allWaiters.map Prod.snd).filterMap Job.join? :=
    List.count_eq_zero.1 (by simpa [Job.join?] using hcount)
  have hno : ∀ k ∈ others ++ n.cells.allWaiters.map Prod.snd, k.join? ≠ some i := fun k hk hjoin =>
    hrest (List.mem_filterMap.2 ⟨k, hk, hjoin⟩)
  refine List.all_eq_true.2 fun c hc => ?_
  by_contra hsettled
  have hpending : n.cells.IsPending c :=
    ⟨hp.inputs i c (hinputs ▸ hc), Cells.isSettled_eq_false_iff.1 (Bool.eq_false_iff.2 hsettled)⟩
  have hpos := List.count_pos_iff.2 (hinputs ▸ hc)
  rw [h.pending i c hpending, awaited] at hpos
  rcases Nat.add_pos_iff_pos_or_pos.1 hpos with hpos | hpos
  · obtain ⟨w, hw, hjoin⟩ := List.mem_filterMap.1 (List.count_pos_iff.1 hpos)
    refine hno w.2 (List.mem_append_right _ (List.mem_map_of_mem ?_)) hjoin
    exact (Cells.mem_allWaiters _).2 ⟨c, hw⟩
  · obtain ⟨k, hk, hclaim⟩ := List.mem_filterMap.1 (List.count_pos_iff.1 hpos)
    rcases List.mem_cons.1 hk with rfl | hk
    · cases hclaim
    · exact hno k (List.mem_append_left _ hk) (join?_of_claim? hclaim)

/-- Every step keeps everything in its place. -/
theorem Deed.keeps_placed (hd : n.Deed (Prod.mk t) t j turn notes) (hp : n.Placed (j :: others))
    (h : n.Counted (j :: others)) : turn.network.Placed (turn.free others) := by
  have hothers : ∀ k ∈ others, n.Runs k := hp.rest.runs
  have hnew : ∀ {x}, n.cells.size < (n.withCell x).cells.size := fun {x} => by simp [withCell]
  cases hd with
  | idle => exact hp.rest
  | noted => exact hp.rest.note _
  | shared hc hn => exact hp.rest.of_named (hp.named _ hc) hn
  | split =>
    refine hp.rest.todo fun k hk => ?_
    rcases List.mem_append.1 hk with hk | hk
    · obtain ⟨a, -, rfl⟩ := List.mem_map.1 hk
      trivial
    · exact hothers k hk
  | registered hj hc =>
    exact hp.rest.register ⟨lt_of_registers hp hj, hc⟩ (.of_registers hj (hp.runs _ List.mem_cons_self))
  | atOnce hj hc =>
    refine hp.rest.todo fun k hk => ?_
    rcases List.mem_cons.1 hk with rfl | hk
    · exact .of_awaits (.of_registers hj (hp.runs _ List.mem_cons_self)) hc
    · exact hothers k hk
  | promised =>
    have hmade := (hp.rest.withCell none).of_named hnew (.inl rfl)
    refine hmade.withPromises (fun i hi => ?_) ?_
    · rcases List.mem_append.1 hi with hi | hi
      · have := hp.kept i hi
        simp only [named, withCell, Array.size_push]
        omega
      · obtain rfl := List.mem_singleton.1 hi
        simp [named, withCell]
    · refine List.nodup_append.2 ⟨hp.nodup, List.pairwise_singleton _ _, fun i hi i' hi' => ?_⟩
      obtain rfl := List.mem_singleton.1 hi'
      exact Nat.ne_of_lt (hp.kept i hi)
  | made hn => exact (hp.rest.withCell _).of_named hnew hn
  | trivial => exact hp.rest.of_named (Cells.lt_size_of_result? hp.done) (.inr rfl)
  | @derived source c f hname =>
    have hmade := (hp.rest.withCell none).of_named hnew (.inl rfl)
    refine hmade.todo fun k hk => ?_
    rcases List.mem_cons.1 hk with rfl | hk
    · exact ⟨Nat.lt_trans (hp.named c ⟨source, hname⟩) hnew, rfl⟩
    · exact hmade.runs k hk
  | @joined sources inputs _ hinputs =>
    have hkept : ∀ c ∈ inputs, c < (n.withCell none).cells.size := fun c hc =>
      Nat.lt_trans (hp.named c (hinputs c hc)) hnew
    have hmade := (hp.rest.withCell none).of_named hnew (.inr rfl)
    refine (hmade.withJoins (n.joins.push ⟨inputs, inputs.length, n.cells.size⟩)
      fun i join hi => ?_).todo fun k hk => ?_
    · rw [Array.getElem?_push] at hi
      split at hi
      · obtain rfl := Option.some.inj hi
        exact hkept
      · exact fun c hc => hmade.inputs i c (mem_inputs.2 ⟨join, hi, hc⟩)
    · rcases List.mem_append.1 hk with hk | hk
      · obtain ⟨c, hc, rfl⟩ := List.mem_map.1 hk
        exact ⟨hkept c hc, True.intro⟩
      · exact (hmade.runs k hk).mono (Nat.le_refl _) fun _ _ h => h
  | kept =>
    exact (hp.rest.withPromises (fun i hi => hp.kept i (List.mem_of_mem_erase hi))
      (hp.nodup.erase _)).settle _ _
  | fired => exact hp.rest.settle _ _
  | stuck | uncounted => exact hp.rest
  | @counted i join hj =>
    have hset := hp.rest.withJoins
      (n.joins.setIfInBounds i { join with remaining := join.remaining - 1 }) fun i' join' hi' => by
        rw [Array.getElem?_setIfInBounds] at hi'
        split at hi'
        · next heq =>
          split at hi'
          · obtain rfl := Option.some.inj hi'
            exact fun c hc => hp.inputs i c (mem_inputs.2 ⟨join, hj, hc⟩)
          · cases hi'
        · exact fun c hc => hp.inputs i' c (mem_inputs.2 ⟨join', hi', hc⟩)
    refine hset.todo fun k hk => ?_
    rcases List.mem_append.1 hk with hk | hk
    · dsimp only at hk
      split at hk
      · next hone =>
        obtain rfl := List.mem_singleton.1 hk
        exact h.all_settled hp hj hone
      · cases hk
    · exact hset.runs k hk
  | completed => exact hp.rest.settle _ _

namespace Counted

theorem todo (h : n.Counted free)
    (hjoin : (free'.filterMap Job.join?).Perm (free.filterMap Job.join?))
    (hclaim : (free'.filterMap Job.claim?).Perm (free.filterMap Job.claim?)) : n.Counted free' where
  counted i := by
    rw [← h.counted, work, work, List.filterMap_append, List.filterMap_append]
    exact (hjoin.append_right _).count_eq i
  pending i c hc := by rw [h.pending i c hc, awaited, awaited, hclaim.count_eq]

theorem perm (h : n.Counted free) (hperm : free'.Perm free) : n.Counted free' :=
  h.todo (hperm.filterMap _) (hperm.filterMap _)

theorem rest (h : n.Counted (j :: others)) (hj : j.join? = none) : n.Counted others := by
  have hclaim : j.claim? = none := by
    cases hclaim : j.claim? with
    | none => rfl
    | some x => exact absurd (join?_of_claim? hclaim) (by simp [hj])
  exact h.todo (by rw [List.filterMap_cons, hj]) (by rw [List.filterMap_cons, hclaim])

theorem congr (h : n.Counted free) (hcells : n'.cells = n.cells) (hjoins : n'.joins = n.joins) :
    n'.Counted free where
  counted i := by rw [work, remaining, hcells, hjoins]; exact h.counted i
  pending i c hc := by
    rw [hcells] at hc
    rw [inputs, hjoins, awaited, hcells]
    exact h.pending i c hc

/-- A new cell is nobody's input yet. -/
theorem withCell (h : n.Counted free) (hp : n.Placed free) (x : Option (Result α)) :
    (n.withCell x).Counted free where
  counted i := by
    rw [work, NetworkOf.withCell, Cells.allWaiters_add]
    exact h.counted i
  pending i c hc := by
    have hawaited : (n.withCell x).awaited free i c = n.awaited free i c := by
      rw [awaited, NetworkOf.withCell, Cells.waiters_add, awaited]
    rw [hawaited]
    by_cases hlt : c < n.cells.size
    · refine h.pending i c ⟨hlt, ?_⟩
      have hnone := hc.2
      rwa [NetworkOf.withCell, Cells.result?_add, if_neg (by omega)] at hnone
    · have hinput : c ∉ n.inputs i := fun hmem => hlt (hp.inputs i c hmem)
      have hclaim : (i, c) ∉ free.filterMap Job.claim? := fun hmem => by
        obtain ⟨k, hk, hclaim⟩ := List.mem_filterMap.1 hmem
        cases k with
        | attach d k =>
          obtain ⟨i', -, heq⟩ := Option.map_eq_some_iff.1 hclaim
          obtain ⟨-, rfl⟩ := Prod.mk.inj heq
          exact hlt (hp.runs _ hk).1
        | act | derive | countDown | complete => cases hclaim
      rw [awaited, Cells.waiters_of_size_le (Nat.le_of_not_lt hlt), List.count_eq_zero.2 hclaim]
      exact List.count_eq_zero.2 hinput

/-- Who waited for the cell may be done now. -/
theorem settle (h : n.Counted free) (hp : n.Placed free) (c : Nat) (r : Result α) :
    (n.settleCell c r).network.Counted ((n.settleCell c r).free free) where
  counted i := by
    rw [((work_settleCell c r free).filterMap Job.join?).count_eq, h.counted]
    rfl
  pending i d hd := by
    by_cases hc : n.cells.IsPending c
    · have hresult := Cells.result?_settle hc r
      have hdc : d ≠ c := by
        rintro rfl
        have hnone := (hresult d).symm.trans hd.2
        simp at hnone
      have hpending : n.cells.IsPending d :=
        ⟨(Cells.size_settle n.cells c r) ▸ hd.1, by
          rw [← hd.2]
          exact ((hresult d).trans (if_neg hdc)).symm⟩
      have hwaiters : (n.settleCell c r).network.cells.waiters d = n.cells.waiters d :=
        (Cells.waiters_settle hc r d).trans (if_neg hdc)
      have hwoken : ((n.settleCell c r).woken.map Prod.snd).filterMap Job.claim? = [] :=
        List.filterMap_eq_nil_iff.2 fun k hk => by
          obtain ⟨w, hw, rfl⟩ := List.mem_map.1 hk
          exact claim?_of_awaits (hp.awaits c w (Cells.mem_waiters_of_mem_settle _ hw))
      rw [awaited, hwaiters, Turn.free, List.append_assoc, List.filterMap_append, hwoken]
      exact h.pending i d hpending
    · have hsettle : n.settleCell c r = { network := n } := by
        rw [settleCell, Cells.settle_of_not_isPending hc]
      rw [hsettle] at hd ⊢
      exact h.pending i d hd

/-- A job is registered with a pending cell, or handed on because the cell is settled. -/
theorem registered (h : n.Counted (j :: others)) (hj : n.Registers j c k)
    (hc : n.cells.IsPending c) :
    ({ n with cells := n.cells.register c (t, k) } : NetworkOf α (Ticketed α)).Counted others where
  counted i := by
    rw [((work_register hc.1 k others).filterMap Job.join?).count_eq, List.filterMap_cons,
      join?_of_registers hj, ← List.filterMap_cons]
    exact h.counted i
  pending i d hd := by
    have hold := h.pending i d ⟨(Cells.size_register n.cells c (t, k)) ▸ hd.1,
      (Cells.result?_register ..).symm.trans hd.2⟩
    rw [awaited, List.filterMap_cons, claim?_of_registers hj] at hold
    refine hold.trans ?_
    rw [awaited, Cells.waiters_register hc.1]
    by_cases hdc : d = c
    · subst hdc
      cases hk : k.join? <;> simp [hk, List.filterMap_append, List.count_cons]
      omega
    · cases hk : k.join? <;> simp [hdc, Ne.symm hdc]

theorem atOnce (h : n.Counted (j :: others)) (hj : n.Registers j c k) (hk : k.Awaits c)
    (hc : n.cells.isSettled c) : n.Counted (k :: others) where
  counted i := by
    rw [← h.counted i, work, work, List.cons_append, List.cons_append, List.filterMap_cons,
      List.filterMap_cons, join?_of_registers hj]
  pending i d hd := by
    have hdc : c ≠ d := by
      rintro rfl
      rw [hd.not_isSettled] at hc
      cases hc
    rw [h.pending i d hd, awaited, awaited, List.filterMap_cons, List.filterMap_cons,
      claim?_of_registers hj, claim?_of_awaits hk]
    cases k.join? <;> simp [hdc]

/-- An input is counted down. -/
theorem countDown (h : n.Counted (.countDown i :: others)) {join : Join} (hj : n.joins[i]? = some join)
    {next : List (Job α)} (hnext : ∀ k ∈ next, k.join? = none) :
    ({ n with joins := n.joins.setIfInBounds i { join with remaining := join.remaining - 1 } } :
      NetworkOf α (Ticketed α)).Counted (next ++ others) := by
  have hlt := (Array.getElem?_eq_some_iff.1 hj).1
  have hnone : next.filterMap Job.join? = [] := List.filterMap_eq_nil_iff.2 hnext
  have hclaims : next.filterMap Job.claim? = [] := List.filterMap_eq_nil_iff.2 fun k hk => by
    cases hclaim : k.claim? with
    | none => rfl
    | some x => exact absurd (join?_of_claim? hclaim) (by simp [hnext k hk])
  refine ⟨fun i' => ?_, fun i' d hd => ?_⟩
  · have hcount := h.counted i'
    rw [work, List.cons_append, List.filterMap_cons] at hcount
    rw [work, List.append_assoc, List.filterMap_append, hnone, List.nil_append]
    by_cases hi : i' = i
    · subst hi
      simp only [Job.join?, List.count_cons, remaining, hj] at hcount
      simp only [remaining, Array.getElem?_setIfInBounds_self_of_lt hlt]
      simp at hcount ⊢
      omega
    · simpa [Job.join?, remaining, Array.getElem?_setIfInBounds, Ne.symm hi] using hcount
  · have hinputs : ({ n with
        joins := n.joins.setIfInBounds i { join with remaining := join.remaining - 1 } } :
        NetworkOf α (Ticketed α)).inputs i' = n.inputs i' := by
      by_cases hi : i' = i
      · rw [hi, inputs, inputs, hj, Array.getElem?_setIfInBounds_self_of_lt hlt]
        rfl
      · simp [inputs, Ne.symm hi]
    rw [hinputs, h.pending i' d hd, awaited, awaited, List.filterMap_append, hclaims,
      List.filterMap_cons]
    rfl

/-- A join is made, whose inputs are to be counted down. -/
theorem join (h : n.Counted free) (inputs : List Nat) (target : Nat) :
    ({ n with joins := n.joins.push ⟨inputs, inputs.length, target⟩ } :
      NetworkOf α (Ticketed α)).Counted (countDowns inputs n.joins.size ++ free) := by
  have hjoins : (countDowns inputs n.joins.size : List (Job α)).filterMap Job.join? =
      List.replicate inputs.length n.joins.size := by
    rw [countDowns, List.filterMap_map, ← List.map_const']
    exact List.filterMap_eq_map (f := fun _ => n.joins.size) ▸ rfl
  have hclaims : (countDowns inputs n.joins.size : List (Job α)).filterMap Job.claim? =
      inputs.map (n.joins.size, ·) := by
    rw [countDowns, List.filterMap_map]
    exact List.filterMap_eq_map (f := (n.joins.size, ·)) ▸ rfl
  have hnone : n.joins[n.joins.size]? = none := Array.getElem?_eq_none (Nat.le_refl _)
  refine ⟨fun i => ?_, fun i d hd => ?_⟩
  · have hcount := h.counted i
    rw [work, List.append_assoc, List.filterMap_append, hjoins, List.count_append,
      List.count_replicate]
    refine (congrArg _ hcount).trans ?_
    by_cases hi : i = n.joins.size
    · simp [remaining, hi]
    · simp [remaining, Array.getElem?_push, hi, Ne.symm hi]
  · have hcount := h.pending i d hd
    rw [awaited, List.filterMap_append, hclaims, List.count_append]
    by_cases hi : i = n.joins.size
    · subst hi
      rw [NetworkOf.inputs, hnone, awaited] at hcount
      have hpairs : (inputs.map (n.joins.size, ·)).count (n.joins.size, d) = inputs.count d :=
        List.count_map_of_injective _ _ (fun _ _ h => (Prod.mk.inj h).2) d
      have hnew : ({ n with joins := n.joins.push ⟨inputs, inputs.length, target⟩ } :
          NetworkOf α (Ticketed α)).inputs n.joins.size = inputs := by simp [NetworkOf.inputs]
      have hzero : ((none : Option Join).map Join.inputs).getD [] = [] := rfl
      rw [hzero, List.count_nil] at hcount
      rw [hpairs, hnew]
      dsimp only
      omega
    · have hpairs : (inputs.map (n.joins.size, ·)).count (i, d) = 0 :=
        List.count_eq_zero.2 fun hmem => by
          obtain ⟨c, -, heq⟩ := List.mem_map.1 hmem
          exact hi (Prod.mk.inj heq).1.symm
      have hold : ({ n with joins := n.joins.push ⟨inputs, inputs.length, target⟩ } :
          NetworkOf α (Ticketed α)).inputs i = n.inputs i := by
        simp [NetworkOf.inputs, Array.getElem?_push, hi]
      rw [hpairs, hold, Nat.zero_add]
      exact hcount

end Counted

/-- Every step keeps the counts. -/
theorem Deed.keeps_counted (hd : n.Deed (Prod.mk t) t j turn notes) (hp : n.Placed (j :: others))
    (h : n.Counted (j :: others)) : turn.network.Counted (turn.free others) := by
  cases hd with
  | idle => exact h.rest rfl
  | noted => exact (h.rest rfl).congr rfl rfl
  | shared _ hn => exact (h.rest rfl).congr hn.cells hn.joins
  | @split actions =>
    exact (h.rest rfl).todo (.of_eq (filterMap_acts (fun _ => rfl) actions _))
      (.of_eq (filterMap_acts (fun _ => rfl) actions _))
  | registered hj hc => exact h.registered hj ⟨lt_of_registers hp hj, hc⟩
  | atOnce hj hc => exact h.atOnce hj (.of_registers hj (hp.runs _ List.mem_cons_self)) hc
  | promised => exact ((h.rest rfl).withCell hp.rest none).congr rfl rfl
  | made hn => exact ((h.rest rfl).withCell hp.rest _).congr hn.cells hn.joins
  | trivial => exact (h.rest rfl).congr rfl rfl
  | derived =>
    have hmade : ((n.withCell none).named n.cells.size).Counted others :=
      ((h.rest rfl).withCell hp.rest none).congr rfl rfl
    exact hmade.todo (.refl _) (.refl _)
  | joined => exact (((h.rest rfl).withCell hp.rest none).join _ _).congr rfl rfl
  | @kept i =>
    have hless := hp.rest.withPromises (fun i' hi' => hp.kept i' (List.mem_of_mem_erase hi'))
      (hp.nodup.erase i)
    exact Counted.settle (n := { n with promises := n.promises.erase i })
      ((h.rest rfl).congr rfl rfl) hless _ _
  | fired | completed => exact (h.rest rfl).settle hp.rest _ _
  | stuck => exact h.rest rfl
  | @uncounted i hj =>
    have hcount := h.counted i
    rw [work, List.cons_append, List.filterMap_cons, remaining, hj] at hcount
    simp [Job.join?] at hcount
  | counted hj =>
    refine h.countDown hj fun k hk => ?_
    rcases List.mem_append.1 hk with hk | hk
    · cases hk
    · dsimp only at hk
      split at hk
      · obtain rfl := List.mem_singleton.1 hk
        rfl
      · cases hk

end OpFlow.Async.NetworkOf
