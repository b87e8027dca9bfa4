import OpFlow.Proofs.Pool.Counters

/-!
Which tasks a pool runs. Workers leave only after they have seen the queue empty and then the pool
closed, so every task is run that a task pushes, or whose submission has returned before the pool
was closed. But a submission from outside that was checked before that may push its task after the
last worker has gone, and it is accepted all the same.
-/
namespace OpFlow

def Worker.isActive {τ : Type} : Worker τ → Bool
  | ready | taken _ | running _ => true
  | seeking | guarding | asleep | gone => false

namespace Workshop

variable {n m : Nat} {τ : Type} {s s' s₁ s₂ : Workshop n m τ}

/-! ### What one step does -/

/-- Nothing has happened to the callers and their part of the history. -/
structure SameCalls (s s' : Workshop n m τ) : Prop where
  errands : s'.errands = s.errands
  handles : s'.handles = s.handles
  collections : s'.collections = s.collections
  pushed : s'.pushed = s.pushed
  accepted : s'.accepted = s.accepted
  closed : s'.pool.closed = s.pool.closed

namespace Works

variable {w : Fin n}

theorem others (h : Works w s s') {v : Fin n} (hv : v ≠ w) : s'.workers v = s.workers v := by
  cases h <;> exact Function.update_of_ne hv ..

theorem sameCalls (h : Works w s s') : SameCalls s s' := by
  cases h with
  | take hw ht =>
    obtain ⟨rest, -, rfl⟩ := WorkerPool.take?_eq_some_iff.1 ht
    exact ⟨rfl, rfl, rfl, rfl, rfl, rfl⟩
  | miss | run | finish | retry | guard | leave | sleep | wake =>
    exact ⟨rfl, rfl, rfl, rfl, rfl, rfl⟩

theorem started (h : Works w s s') : s.started <+: s'.started := by
  cases h with
  | take => exact List.prefix_append _ _
  | miss | run | finish | retry | guard | leave | sleep | wake => exact List.prefix_refl _

theorem guarding (h : Works w s s') (hw : s'.workers w = .guarding) : s.pool.queue = [] := by
  cases h with
  | guard _ _ hqueue => exact hqueue
  | take | miss | run | finish | retry | leave | sleep | wake => simp at hw

theorem gone (h : Works w s s') (hw : s'.workers w = .gone) :
    s.workers w = .guarding ∧ s.pool.closed = true := by
  cases h with
  | leave hguarding hclosed => exact ⟨hguarding, hclosed⟩
  | take | miss | run | finish | retry | guard | sleep | wake => simp at hw

theorem not_gone (h : Works w s s') : s.workers w ≠ .gone := by
  cases h <;> simp_all

theorem inactive (h : Works w s s') (hactive : (s.workers w).isActive = true)
    (hw : (s'.workers w).isActive = false) : s.pool.queue = [] := by
  cases h with
  | miss _ ht => exact WorkerPool.take?_eq_none_iff.1 ht
  | take | run | finish | retry | wake => simp [Worker.isActive] at hw
  | guard hguarding | leave hguarding | sleep hguarding =>
    simp [hguarding, Worker.isActive] at hactive

theorem running (h : Works w s s') {t : τ} (hw : s.workers w = .running t) :
    s'.workers w = .ready ∧ s'.pool.completed = s.pool.completed + 1 := by
  cases h with
  | finish => exact ⟨put_workers_self .., rfl⟩
  | take hother | miss hother | run hother | retry hother | guard hother | leave hother
  | sleep hother | wake hother => cases hother.symm.trans hw

end Works

namespace Calls

variable {x : Caller n m}

theorem others (h : Calls x s s') {y : Caller n m} (hy : y ≠ x) : s'.errands y = s.errands y := by
  cases h <;> exact Function.update_of_ne hy ..

theorem frame (h : Calls x s s') : s'.workers = s.workers ∧ s'.started = s.started := by
  cases h <;> exact ⟨rfl, rfl⟩

theorem accepted (h : Calls x s s') : s.accepted <+: s'.accepted := by
  cases h with
  | accept => exact List.prefix_append _ _
  | check | count | push | close | closed | rouse | overflow | collect | pass | join | giveUp
  | report => exact List.prefix_refl _

theorem closed_eq (h : Calls x s s') :
    s'.pool.closed = s.pool.closed ∨ ∃ waits, s' = s.close x waits := by
  cases h with
  | close waits => exact .inr ⟨waits, rfl⟩
  | check | count | push | accept | closed | rouse | overflow | collect | pass | join | giveUp
  | report => exact .inl rfl

theorem pushed_eq (h : Calls x s s') :
    s'.pushed = s.pushed ∨ ∃ t, s.errands x = .counted t ∧ s'.pushed = s.pushed ++ [(x, t)] := by
  cases h with
  | push hx => exact .inr ⟨_, hx, rfl⟩
  | check | count | accept | close | closed | rouse | overflow | collect | pass | join | giveUp
  | report => exact .inl rfl

theorem submits (h : Calls x s s') (hclosed : s.pool.closed = true)
    (hx : (s.errands x).submits = false) : (s'.errands x).submits = false := by
  cases h with
  | check t _ hopen => exact absurd (hopen.symm.trans hclosed) nofun
  | count hsubmits | push hsubmits => simp [hsubmits, Errand.submits] at hx
  | accept | close | closed | rouse | overflow | collect | pass | join | giveUp | report =>
    simp [Errand.submits]

end Calls

structure Grows (s s' : Workshop n m τ) : Prop where
  pushed : s.pushed <+: s'.pushed
  accepted : s.accepted <+: s'.accepted
  started : s.started <+: s'.started

theorem Grows.refl (s : Workshop n m τ) : Grows s s :=
  ⟨List.prefix_refl _, List.prefix_refl _, List.prefix_refl _⟩

theorem Grows.trans (h : Grows s s') (h' : Grows s' s₂) : Grows s s₂ :=
  ⟨h.pushed.trans h'.pushed, h.accepted.trans h'.accepted, h.started.trans h'.started⟩

theorem Works.grows {w : Fin n} (h : Works w s s') : Grows s s' := by
  have hcalls := h.sameCalls
  exact ⟨hcalls.pushed ▸ List.prefix_refl _, hcalls.accepted ▸ List.prefix_refl _, h.started⟩

theorem Calls.grows {x : Caller n m} (h : Calls x s s') : Grows s s' := by
  refine ⟨?_, h.accepted, h.frame.2 ▸ List.prefix_refl _⟩
  rcases h.pushed_eq with heq | ⟨t, -, heq⟩
  · exact heq ▸ List.prefix_refl _
  · exact heq ▸ List.prefix_append _ _

namespace Step

theorem grows (h : Step s s') : Grows s s' := by
  cases h with
  | works w h => exact h.grows
  | calls x h => exact h.grows

theorem closed (h : Step s s') (hclosed : s.pool.closed = true) : s'.pool.closed = true := by
  cases h with
  | works w h => exact h.sameCalls.closed.trans hclosed
  | calls x h =>
    rcases h.closed_eq with heq | ⟨waits, rfl⟩
    · exact heq.trans hclosed
    · rfl

theorem closes (h : Step s s') (hopen : s.pool.closed = false) (hclosed : s'.pool.closed = true) :
    ∃ x waits, s' = s.close x waits := by
  cases h with
  | works w h => exact absurd ((hopen.symm.trans h.sameCalls.closed.symm).trans hclosed) nofun
  | calls x h =>
    rcases h.closed_eq with heq | hclose
    · exact absurd ((hopen.symm.trans heq.symm).trans hclosed) nofun
    · exact ⟨x, hclose⟩

end Step

theorem Run.grows (h : Run s s') : Grows s s' := by
  induction h with
  | refl => exact .refl s
  | tail _ hs ih => exact ih.trans hs.grows

/-! ### What the history says of single tasks -/

theorem getElem?_concat_cases {x y : Caller n m} {t u : τ} {pushed : List (Caller n m × τ)}
    {k : Nat} (hk : (pushed ++ [(x, t)])[k]? = some (y, u)) :
    pushed[k]? = some (y, u) ∨ k = pushed.length ∧ y = x ∧ u = t := by
  rcases Nat.lt_trichotomy k pushed.length with hlt | rfl | hgt
  · exact .inl ((List.getElem?_append_left hlt).symm.trans hk)
  · rw [List.getElem?_concat_length] at hk
    obtain ⟨rfl, rfl⟩ := Prod.mk.inj (Option.some.inj hk)
    exact .inr ⟨rfl, rfl, rfl⟩
  · rw [List.getElem?_eq_none (by rw [List.length_append, List.length_singleton]; omega)] at hk
    cases hk

/-- The tasks by their numbers: what has become of the submissions that pushed them, and who still
has to come by before they are started. -/
structure Kept (s : Workshop n m τ) : Prop where
  pushed : ∀ x k, s.errands x = .pushed k → k < s.pushed.length
  accepted : ∀ k ∈ s.accepted, k < s.pushed.length
  returned : ∀ k x t, s.pushed[k]? = some (x, t) → k ∈ s.accepted ∨ s.errands x = .pushed k
  free : ∀ k ∈ s.accepted, k < s.started.length ∨ s.IsFree
  own : ∀ k w t, s.pushed[k]? = some (.worker w, t) →
    k < s.started.length ∨ (s.workers w).isActive = true

namespace Kept

theorem new : Kept ({} : Workshop n m τ) where
  pushed _ _ h := nomatch h
  accepted _ h := nomatch h
  returned _ _ _ h := nomatch h
  free _ h := nomatch h
  own _ _ _ h := nomatch h

theorem congr (h : s.Kept) (hworkers : s'.workers = s.workers) (herrands : s'.errands = s.errands)
    (hpushed : s'.pushed = s.pushed) (haccepted : s'.accepted = s.accepted)
    (hstarted : s'.started = s.started) : s'.Kept := by
  refine ⟨?_, ?_, ?_, ?_, ?_⟩
  · rw [herrands, hpushed]
    exact h.pushed
  · rw [haccepted, hpushed]
    exact h.accepted
  · rw [hpushed, haccepted, herrands]
    exact h.returned
  · rw [haccepted, hstarted, IsFree, hworkers]
    exact h.free
  · rw [hpushed, hstarted, hworkers]
    exact h.own

theorem lt_started (ho : s.Orderly) (hqueue : s.pool.queue = []) (hs : s.started <+: s'.started)
    {k : Nat} (hk : k < s.pushed.length) : k < s'.started.length := by
  have hlength := ho.length_started
  rw [hqueue, List.length_nil] at hlength
  have hle := hs.length_le
  omega

theorem works (h : s.Kept) (ho : s.Orderly) {w : Fin n} (hs : Works w s s') : s'.Kept := by
  obtain ⟨herrands, -, -, hpushed, haccepted, -⟩ := hs.sameCalls
  have hle := hs.started.length_le
  refine ⟨?_, ?_, ?_, fun k hk => ?_, fun k v t hk => ?_⟩
  · rw [herrands, hpushed]
    exact h.pushed
  · rw [haccepted, hpushed]
    exact h.accepted
  · rw [herrands, hpushed, haccepted]
    exact h.returned
  · rw [haccepted] at hk
    rcases h.free k hk with hlt | hfree
    · exact .inl (hlt.trans_le hle)
    by_cases hguarding : s'.workers w = .guarding
    · exact .inl (lt_started ho (hs.guarding hguarding) hs.started (h.accepted k hk))
    · refine .inr fun v => ?_
      rcases eq_or_ne v w with rfl | hne
      · exact hguarding
      · rw [hs.others hne]
        exact hfree v
  · rw [hpushed] at hk
    rcases h.own k v t hk with hlt | hactive
    · exact .inl (hlt.trans_le hle)
    rcases eq_or_ne v w with rfl | hne
    · cases hactive' : (s'.workers v).isActive with
      | true => exact .inr rfl
      | false =>
        have hlt := (List.getElem?_eq_some_iff.1 hk).1
        exact .inl (lt_started ho (hs.inactive hactive hactive') hs.started hlt)
    · rw [hs.others hne]
      exact .inr hactive

theorem send (h : s.Kept) {x : Caller n m} {e : Errand n τ}
    (hx : ∀ k, s.errands x ≠ .pushed k) (he : ∀ k, e ≠ .pushed k) : (s.send x e).Kept where
  pushed y k hy := by
    rcases eq_or_ne y x with rfl | hne
    · exact absurd ((send_errands_self ..).symm.trans hy) (he k)
    · exact h.pushed y k ((send_errands_of_ne _ _ _ hne).symm.trans hy)
  accepted := h.accepted
  returned k y t hk := by
    refine (h.returned k y t hk).imp_right fun hy => ?_
    rcases eq_or_ne y x with rfl | hne
    · exact absurd hy (hx k)
    · exact (send_errands_of_ne _ _ _ hne).trans hy
  free := h.free
  own := h.own

theorem push (h : s.Kept) (ho : s.Orderly) {x : Caller n m} {t : τ}
    (hx : s.errands x = .counted t) : (s.push x t).Kept := by
  have hlength : (s.push x t).pushed.length = s.pushed.length + 1 := by
    change (s.pushed ++ [(x, t)]).length = _
    rw [List.length_append, List.length_singleton]
  refine ⟨fun y k hy => ?_, fun k hk => ?_, fun k y u hk => ?_, h.free, fun k w u hk => ?_⟩
  · rw [hlength]
    rcases eq_or_ne y x with rfl | hne
    · rw [push_errands, send_errands_self] at hy
      cases hy
      exact Nat.lt_succ_self _
    · rw [push_errands, send_errands_of_ne _ _ _ hne] at hy
      exact (h.pushed y k hy).trans (Nat.lt_succ_self _)
  · rw [hlength]
    exact (h.accepted k hk).trans (Nat.lt_succ_self _)
  · rw [push_errands]
    rcases getElem?_concat_cases hk with hk | ⟨rfl, rfl, -⟩
    · refine (h.returned k y u hk).imp_right fun hy => ?_
      have hne : y ≠ x := by
        rintro rfl
        cases hx.symm.trans hy
      exact (send_errands_of_ne _ _ _ hne).trans hy
    · exact .inr (send_errands_self ..)
  · rcases getElem?_concat_cases hk with hk | ⟨-, hw, -⟩
    · exact h.own k w u hk
    · obtain ⟨u, hrunning⟩ := ho.called w (by rw [hw, hx]; nofun)
      have hactive : (s.workers w).isActive = true := by rw [hrunning]; rfl
      exact .inr hactive

theorem accept (h : s.Kept) {x : Caller n m} {ticket : Nat} (hx : s.errands x = .pushed ticket)
    (hfree : s.IsFree) : (s.accept x ticket).Kept where
  pushed y k hy := by
    rw [accept_errands] at hy
    rcases eq_or_ne y x with rfl | hne
    · rw [send_errands_self] at hy
      cases hy
    · exact h.pushed y k ((send_errands_of_ne _ _ _ hne).symm.trans hy)
  accepted k hk := by
    rcases List.mem_append.1 hk with hk | hk
    · exact h.accepted k hk
    · obtain rfl := List.mem_singleton.1 hk
      exact h.pushed x k hx
  returned k y t hk := by
    rcases h.returned k y t hk with hk | hy
    · exact .inl (List.mem_append_left _ hk)
    rcases eq_or_ne y x with rfl | hne
    · obtain rfl := Errand.pushed.inj (hx.symm.trans hy)
      exact .inl (List.mem_append_right _ (List.mem_singleton.2 rfl))
    · exact .inr ((send_errands_of_ne _ _ _ hne).trans hy)
  free _ _ := .inr hfree
  own := h.own

theorem calls (h : s.Kept) (ho : s.Orderly) {x : Caller n m} (hs : Calls x s s') : s'.Kept := by
  cases hs with
  | push hx => exact h.push ho hx
  | accept hx hfree => exact h.accept hx hfree
  | check t hx => exact h.send (by simp [hx.1]) (by simp)
  | @count t hx =>
    have hsend := h.send (x := x) (e := .counted t) (by simp [hx]) (by simp)
    exact hsend.congr rfl rfl rfl rfl rfl
  | close waits hx =>
    have hsend := h.send (x := x) (e := .closing waits) (by simp [hx.1]) (by simp)
    exact hsend.congr rfl rfl rfl rfl rfl
  | collect hx =>
    have hsend := h.send (x := x) (e := .joining [] s.handles true) (by simp [hx]) (by simp)
    exact hsend.congr rfl rfl rfl rfl rfl
  | closed hx | rouse hx | overflow hx | pass hx | join hx | giveUp hx | report hx =>
    exact h.send (by simp [hx]) (by simp)

end Kept

theorem Reachable.kept (h : Reachable s) : s.Kept := by
  induction h with
  | refl => exact .new
  | tail hr hs ih =>
    have ho := Reachable.orderly hr
    cases hs with
    | works w hs => exact ih.works ho hs
    | calls x hs => exact ih.calls ho hs

/-- A task whose submission has returned before the pool was closed is started before the first
worker leaves. -/
theorem Reachable.started_of_accepted (h : Reachable s₁) (hopen : s₁.pool.closed = false)
    (hrun : Run s₁ s) {k : Nat} (hk : k ∈ s₁.accepted) :
    k < s.started.length ∨ ∀ w, s.workers w ≠ .gone := by
  induction hrun with
  | refl =>
    exact .inr fun w hw => absurd (hopen.symm.trans (h.orderly.closed w hw)) nofun
  | @tail s s' hrun hs ih =>
    rcases ih with hlt | hthere
    · exact .inl (hlt.trans_le hs.grows.started.length_le)
    cases hs with
    | calls x hs =>
      rw [hs.frame.1]
      exact .inr hthere
    | works w hs =>
      by_cases hgone : s'.workers w = .gone
      · -- the worker that leaves held the lock, so by then the task was started
        have hguarding := (hs.gone hgone).1
        have hlt := ((h.run hrun).kept.free k ((Run.grows hrun).accepted.subset hk)).resolve_right
          fun hfree => hfree w hguarding
        exact .inl (hlt.trans_le hs.started.length_le)
      · refine .inr fun v => ?_
        rcases eq_or_ne v w with rfl | hne
        · exact hgone
        · rw [hs.others hne]
          exact hthere v

theorem Kept.started_of_worker (h : s.Kept) {w : Fin n} (hgone : s.workers w = .gone) {k : Nat}
    {t : τ} (hk : s.pushed[k]? = some (.worker w, t)) : k < s.started.length := by
  refine (h.own k w t hk).resolve_right fun hactive => ?_
  rw [hgone] at hactive
  cases hactive

/-- The pool is closed, no submission from outside is under way, and those that were have pushed no
more than the first `limit` tasks. -/
structure Quiet (limit : Nat) (s : Workshop n m τ) : Prop where
  closed : s.pool.closed = true
  submits : ∀ c, (s.errands (.client c)).submits = false
  early : ∀ k c t, s.pushed[k]? = some (.client c, t) → k < limit

theorem Quiet.step {limit : Nat} (h : s.Quiet limit) (hs : Step s s') : s'.Quiet limit := by
  refine ⟨hs.closed h.closed, fun c => ?_, fun k c t hk => ?_⟩
  · cases hs with
    | works w hs =>
      rw [hs.sameCalls.errands]
      exact h.submits c
    | calls x hs =>
      rcases eq_or_ne (.client c) x with rfl | hne
      · exact hs.submits h.closed (h.submits c)
      · rw [hs.others hne]
        exact h.submits c
  · cases hs with
    | works w hs =>
      rw [hs.sameCalls.pushed] at hk
      exact h.early k c t hk
    | calls x hs =>
      rcases hs.pushed_eq with heq | ⟨u, hx, heq⟩
      · exact h.early k c t (heq ▸ hk)
      rw [heq] at hk
      rcases getElem?_concat_cases hk with hk | ⟨-, rfl, -⟩
      · exact h.early k c t hk
      · have hsubmits := h.submits c
        rw [hx] at hsubmits
        cases hsubmits

theorem Quiet.run {limit : Nat} (h : s.Quiet limit) (hrun : Run s s') : s'.Quiet limit := by
  induction hrun with
  | refl => exact h
  | tail _ hs ih => exact ih.step hs

theorem Quiet.of_close {x : Caller n m} {waits : Bool}
    (hquiet : ∀ c, (s.errands (.client c)).submits = false) :
    (s.close x waits).Quiet s.pushed.length where
  closed := rfl
  submits c := by
    rw [close_errands]
    rcases eq_or_ne (.client c) x with rfl | hne
    · rw [send_errands_self]
      rfl
    · rw [send_errands_of_ne _ _ _ hne]
      exact hquiet c
  early _ _ _ hk := (List.getElem?_eq_some_iff.1 hk).1

/-- With all tasks started and no submission under way, nothing is queued or counted. -/
theorem Orderly.drained (h : s.Orderly) (hgone : ∀ w, s.workers w = .gone)
    (hquiet : ∀ c, (s.errands (.client c)).submits = false)
    (hstarted : ∀ k < s.pushed.length, k < s.started.length) :
    s.pool.queue = [] ∧ s.pending = 0 ∧ s.pool.completed = s.accepted.length := by
  have hsubmits (x : Caller n m) : (s.errands x).submits = false := by
    cases x with
    | client c => exact hquiet c
    | worker w =>
      rw [h.idle (by simp [hgone w])]
      rfl
  have hunpushed : tally Errand.unpushed s.errands = 0 :=
    tally_eq_zero fun x => Errand.unpushed_eq_zero (hsubmits x)
  have hunreturned : tally Errand.unreturned s.errands = 0 :=
    tally_eq_zero fun x => Errand.unreturned_eq_zero (hsubmits x)
  obtain ⟨hcompleted, hpending⟩ := h.completed_of_gone hgone
  have hlength := h.length_started
  have haccepted := h.accepted
  have hall : s.pushed.length ≤ s.started.length :=
    Nat.le_of_not_lt fun hlt => Nat.lt_irrefl _ (hstarted _ hlt)
  refine ⟨List.eq_nil_of_length_eq_zero ?_, ?_, ?_⟩ <;> omega

/-- A step that closes a pool. -/
structure Closing (s₁ s₂ : Workshop n m τ) : Prop where
  reachable : Reachable s₁
  isOpen : s₁.pool.closed = false
  step : Step s₁ s₂
  closed : s₂.pool.closed = true

/-- Once all workers have gone, nothing is left of a pool that was closed while no submission from
outside was under way. -/
theorem Closing.nothing_left (h : Closing s₁ s₂) (hrun : Run s₂ s)
    (hquiet : ∀ c, (s₁.errands (.client c)).submits = false) (hn : 0 < n)
    (hgone : ∀ w, s.workers w = .gone) :
    s.pool.queue = [] ∧ s.pending = 0 ∧ s.pool.completed = s.accepted.length := by
  have hrun₁ : Run s₁ s := (Relation.ReflTransGen.single h.step).trans hrun
  have hs := h.reachable.run hrun₁
  have hquiet' : s.Quiet s₁.pushed.length := by
    obtain ⟨x, waits, rfl⟩ := h.step.closes h.isOpen h.closed
    exact (Quiet.of_close hquiet).run hrun
  refine hs.orderly.drained hgone hquiet'.submits fun k hk => ?_
  obtain ⟨⟨x, t⟩, hget⟩ : ∃ task, s.pushed[k]? = some task := ⟨_, List.getElem?_eq_getElem hk⟩
  cases x with
  | worker w => exact hs.kept.started_of_worker (hgone w) hget
  | client c =>
    -- it was pushed before the pool was closed, and by then its submission had returned
    have hlt := hquiet'.early k c t hget
    have hget₁ : s₁.pushed[k]? = some (.client c, t) := by
      rw [← hget, List.getElem?_eq_getElem hlt, (Run.grows hrun₁).pushed.getElem hlt,
        List.getElem?_eq_getElem hk]
    have haccepted : k ∈ s₁.accepted :=
      (h.reachable.kept.returned k _ t hget₁).resolve_right fun hpushed => by
        have hsubmits := hquiet c
        rw [hpushed] at hsubmits
        cases hsubmits
    exact (h.reachable.started_of_accepted h.isOpen hrun₁ haccepted).resolve_right fun hthere =>
      hthere ⟨0, hn⟩ (hgone _)

/-- Tasks start in the order in which they were pushed and at most once; a task that panics leaves
its worker in the loop, and a worker leaves only a closed pool. Once all workers have gone, every
task that was started has ended, and a task that was not started was pushed from outside by a
submission that had not returned when the pool was closed. If none was under way then, nothing is
left. -/
theorem Reachable.strands_only_late (h : Reachable s) (hn : 0 < n) :
    s.started ++ s.pool.queue = s.pushed.map Prod.snd ∧
    (∀ w t s', Works w s s' → s.workers w = .running t →
      s'.workers w = .ready ∧ s'.pool.completed = s.pool.completed + 1) ∧
    (∀ w s', Works w s s' → s'.workers w = .gone →
      s.workers w = .guarding ∧ s.pool.closed = true) ∧
    ((∀ w, s.workers w = .gone) →
      s.pool.completed = s.started.length ∧
      s.pending = s.pool.queue.length + tally Errand.unpushed s.errands ∧
      (∀ k w t, s.pushed[k]? = some (.worker w, t) → k < s.started.length) ∧
      (∀ s₁, Reachable s₁ → s₁.pool.closed = false → Run s₁ s →
        ∀ k ∈ s₁.accepted, k < s.started.length) ∧
      ∀ s₁ s₂, Closing s₁ s₂ → Run s₂ s →
        (∀ c, (s₁.errands (.client c)).submits = false) →
        s.pool.queue = [] ∧ s.pending = 0 ∧ s.pool.completed = s.accepted.length) := by
  refine ⟨h.orderly.order, fun w t s' hs hw => hs.running hw, fun w s' hs hw => hs.gone hw,
    fun hgone => ?_⟩
  obtain ⟨hcompleted, hpending⟩ := h.orderly.completed_of_gone hgone
  refine ⟨hcompleted, hpending, fun k w t hk => h.kept.started_of_worker (hgone w) hk, ?_, ?_⟩
  · intro s₁ h₁ hopen hrun k hk
    exact (h₁.started_of_accepted hopen hrun hk).resolve_right fun hthere =>
      hthere ⟨0, hn⟩ (hgone _)
  · intro s₁ s₂ hclosing hrun hquiet
    exact hclosing.nothing_left hrun hquiet hn hgone

def submitted : Workshop 1 1 Unit :=
  (((({} : Workshop 1 1 Unit).send (.client 0) (.checked ())).count (.client 0) ()).push
    (.client 0) ()).accept (.client 0) 0

theorem reachable_submitted : Reachable submitted :=
  Reachable.new
    |>.calls (.check (x := .client 0) () ⟨rfl, nofun⟩ rfl)
    |>.calls (.count (x := .client 0) rfl)
    |>.calls (.push (x := .client 0) rfl)
    |>.calls (.accept (x := .client 0) rfl (by decide))

theorem strands_only_late_single : ∃ s : Workshop 1 1 Unit, Reachable s ∧
    (∀ w, s.workers w = .gone) ∧ s.accepted = [0] ∧ s.pool.completed = s.started.length := by
  have hran := reachable_submitted
    |>.works (.take (w := 0) rfl rfl)
    |>.works (.run (w := 0) rfl)
    |>.works (.finish (w := 0) false rfl rfl)
  have hclosed := hran
    |>.calls (.close (x := .client 0) false ⟨rfl, nofun⟩)
    |>.calls (.closed (x := .client 0) rfl (by decide))
    |>.works (.miss (w := 0) rfl rfl)
    |>.works (.guard (w := 0) rfl (by decide) rfl)
    |>.works (.leave (w := 0) rfl rfl)
  exact ⟨_, hclosed, by decide, rfl, ((hclosed.strands_only_late Nat.one_pos).2.2.2 (by decide)).1⟩

/-- A submission finds the pool open, then the pool is closed and its only worker leaves, and then
the task is pushed and accepted, and nobody is left to run it. -/
theorem late_submission_stranded : ∃ s : Workshop 1 2 Unit, Reachable s ∧
    (∀ w, s.workers w = .gone) ∧ s.accepted = [0] ∧ s.started = [] ∧ s.pending = 1 ∧
    s.pool.completed = 0 := by
  have hclosed := Reachable.new (n := 1) (m := 2)
    |>.calls (.check (x := .client 0) () ⟨rfl, nofun⟩ rfl)
    |>.calls (.close (x := .client 1) false ⟨rfl, nofun⟩)
  have hleft := hclosed
    |>.works (.miss (w := 0) rfl rfl)
    |>.works (.guard (w := 0) rfl (by decide) rfl)
    |>.works (.leave (w := 0) rfl rfl)
  have haccepted := hleft
    |>.calls (.count (x := .client 0) rfl)
    |>.calls (.push (x := .client 0) rfl)
    |>.calls (.accept (x := .client 0) rfl (by decide))
  exact ⟨_, haccepted, by decide, rfl, rfl, rfl, rfl⟩

end Workshop

end OpFlow
