import OpFlow.Proofs.Pool.Acceptance

/-!
What a pool's report of a clean end is worth. A call that waits for the workers takes their handles
from the pool, and whatever it then reports, no later call finds them. So the first such call tells
the truth: each worker it went through has gone, or is the one that called. Every other call has
nothing to go through and reports a clean end at once, also while workers still run their tasks.
-/
namespace OpFlow.Workshop

variable {n m : Nat} {τ : Type} {s s' s₁ : Workshop n m τ}

theorem Works.stays_gone {w v : Fin n} (h : Works w s s') (hv : s.workers v = .gone) :
    s'.workers v = .gone := by
  have hne : v ≠ w := by
    rintro rfl
    exact h.not_gone hv
  exact (h.others hne).trans hv

theorem Calls.handles_eq {x : Caller n m} (h : Calls x s s') :
    s'.handles = s.handles ∧ s'.collections = s.collections ∨ s' = s.collect x := by
  cases h with
  | collect => exact .inr rfl
  | check | count | push | accept | close | closed | rouse | overflow | pass | join | giveUp
  | report => exact .inl ⟨rfl, rfl⟩

/-- A caller that goes through handles has taken those of all workers, or none, because another call
was before it. And as long as it has not waited in vain, all whose handles it has gone through have
gone, apart from itself. -/
def Sees (s : Workshop n m τ) (x : Caller n m) : Errand n τ → Prop
  | .joining done left clean =>
    (done ++ left = List.finRange n ∨ done ++ left = [] ∧ 1 < s.collections) ∧
      (clean = true → ∀ w ∈ done, x = .worker w ∨ s.workers w = .gone)
  | .none | .checked _ | .counted _ | .pushed _ | .closing _ | .collecting => True

theorem Sees.mono {x : Caller n m} {e : Errand n τ} (h : s.Sees x e)
    (hcollections : s.collections ≤ s'.collections)
    (hgone : ∀ w, s.workers w = .gone → s'.workers w = .gone) : s'.Sees x e := by
  cases e with
  | joining done left clean =>
    obtain ⟨htaken, hclean⟩ := h
    exact ⟨htaken.imp_right fun ⟨hnil, hlt⟩ => ⟨hnil, hlt.trans_le hcollections⟩,
      fun hc w hw => (hclean hc w hw).imp_right (hgone w)⟩
  | none | checked | counted | pushed | closing | collecting => trivial

theorem Sees.next {x : Caller n m} {done left : List (Fin n)} {w : Fin n} {clean clean' : Bool}
    (h : s.Sees x (.joining done (w :: left) clean))
    (hclean : clean' = true → clean = true ∧ (x = .worker w ∨ s.workers w = .gone)) :
    s.Sees x (.joining (done ++ [w]) left clean') := by
  obtain ⟨htaken, hdone⟩ := h
  refine ⟨?_, fun hc v hv => ?_⟩
  · rwa [List.append_assoc, List.singleton_append]
  · obtain ⟨hc, hw⟩ := hclean hc
    rcases List.mem_append.1 hv with hv | hv
    · exact hdone hc v hv
    · obtain rfl := List.mem_singleton.1 hv
      exact hw

/-- The handles are in the pool until a call takes them, and then they are with that call. -/
structure Handed (s : Workshop n m τ) : Prop where
  there : s.collections = 0 → s.handles = List.finRange n
  taken : 0 < s.collections → s.handles = []
  sees : ∀ x, s.Sees x (s.errands x)

namespace Handed

theorem new : Handed ({} : Workshop n m τ) where
  there _ := rfl
  taken h := nomatch h
  sees _ := trivial

theorem works (h : s.Handed) {w : Fin n} (hs : Works w s s') : s'.Handed := by
  obtain ⟨herrands, hhandles, hcollections, -⟩ := hs.sameCalls
  refine ⟨?_, ?_, fun x => ?_⟩
  · rw [hhandles, hcollections]
    exact h.there
  · rw [hhandles, hcollections]
    exact h.taken
  · rw [herrands]
    exact (h.sees x).mono hcollections.ge fun v hv => hs.stays_gone hv

theorem collect (h : s.Handed) (x : Caller n m) :
    (s.collect x).Sees x (.joining [] s.handles true) := by
  refine ⟨?_, fun _ _ hw => nomatch hw⟩
  rcases Nat.eq_zero_or_pos s.collections with hzero | hpos
  · exact .inl (h.there hzero)
  · exact .inr ⟨h.taken hpos, Nat.succ_lt_succ hpos⟩

theorem sees_self (h : s.Handed) {x : Caller n m} (hs : Calls x s s') :
    s'.Sees x (s'.errands x) := by
  cases hs with
  | collect =>
    rw [collect_errands, send_errands_self]
    exact h.collect x
  | pass hx hself =>
    have hsees := h.sees x
    rw [hx] at hsees
    rw [send_errands_self]
    exact hsees.next fun hc => ⟨hc, .inl hself⟩
  | join hx hother hgone =>
    have hsees := h.sees x
    rw [hx] at hsees
    rw [send_errands_self]
    exact hsees.next fun hc => ⟨hc, .inr hgone⟩
  | giveUp hx hother hthere =>
    have hsees := h.sees x
    rw [hx] at hsees
    rw [send_errands_self]
    exact hsees.next nofun
  | check | count | push | accept | close | closed | rouse | overflow | report =>
    simp only [count_errands, push_errands, accept_errands, close_errands, send_errands_self]
    trivial

theorem calls (h : s.Handed) {x : Caller n m} (hs : Calls x s s') : s'.Handed := by
  have hworkers := hs.frame.1
  have hle : s.collections ≤ s'.collections := by
    rcases hs.handles_eq with ⟨-, heq⟩ | rfl
    · exact heq.ge
    · exact Nat.le_succ _
  refine ⟨fun hzero => ?_, fun hpos => ?_, fun y => ?_⟩
  · rcases hs.handles_eq with ⟨hhandles, hcollections⟩ | rfl
    · exact hhandles.trans (h.there (hcollections ▸ hzero))
    · exact absurd hzero (Nat.succ_ne_zero _)
  · rcases hs.handles_eq with ⟨hhandles, hcollections⟩ | rfl
    · exact hhandles.trans (h.taken (hcollections ▸ hpos))
    · rfl
  · rcases eq_or_ne y x with rfl | hne
    · exact h.sees_self hs
    · rw [hs.others hne]
      exact (h.sees y).mono hle fun w hw => (congrFun hworkers w).trans hw

end Handed

theorem Reachable.handed (h : Reachable s) : s.Handed := by
  induction h with
  | refl => exact .new
  | tail _ hs ih =>
    cases hs with
    | works w hs => exact ih.works hs
    | calls x hs => exact ih.calls hs

/-- A call that is about to report a clean end has found no handles, because another call took them,
or all workers other than its caller have gone. Then every task that a task of such a worker pushed
has been started, and, if there is such a worker, every task whose submission had returned while the
pool was open. If it was called from outside, all tasks that were started have ended. -/
theorem Reachable.clean_report (h : Reachable s) {x : Caller n m} {done : List (Fin n)}
    (hx : s.errands x = .joining done [] true) :
    done = [] ∧ 1 < s.collections ∨
    (∀ w, x = .worker w ∨ s.workers w = .gone) ∧
    (∀ w, x ≠ .worker w →
      (∀ k t, s.pushed[k]? = some (.worker w, t) → k < s.started.length) ∧
      ∀ s₁, Reachable s₁ → s₁.pool.closed = false → Run s₁ s →
        ∀ k ∈ s₁.accepted, k < s.started.length) ∧
    (∀ c, x = .client c → s.pool.completed = s.started.length) := by
  have hsees := h.handed.sees x
  rw [hx] at hsees
  obtain ⟨htaken, hclean⟩ := hsees
  rw [List.append_nil] at htaken
  refine htaken.symm.imp_right fun hall => ?_
  have hgone (w : Fin n) : x = .worker w ∨ s.workers w = .gone :=
    hclean rfl w (hall ▸ List.mem_finRange w)
  refine ⟨hgone, fun w hw => ⟨fun k t hk => ?_, fun s₁ h₁ hopen hrun k hk => ?_⟩, fun c hc => ?_⟩
  · exact h.kept.started_of_worker ((hgone w).resolve_left hw) hk
  · exact (h₁.started_of_accepted hopen hrun hk).resolve_right fun hthere =>
      hthere w ((hgone w).resolve_left hw)
  · refine (h.orderly.completed_of_gone fun w => (hgone w).resolve_left ?_).1
    rw [hc]
    nofun

/-- The only call waits for a worker that ends its task and leaves. -/
theorem clean_report_single : ∃ s : Workshop 1 1 Unit, Reachable s ∧
    s.errands (.client 0) = .joining [0] [] true ∧ s.accepted = [0] ∧
    s.pool.completed = s.started.length := by
  have hwaiting := reachable_submitted
    |>.works (.take (w := 0) rfl rfl)
    |>.works (.run (w := 0) rfl)
    |>.calls (.close (x := .client 0) true ⟨rfl, nofun⟩)
    |>.calls (.rouse (x := .client 0) rfl (by decide))
    |>.calls (.collect (x := .client 0) rfl)
  have hleft := hwaiting
    |>.works (.finish (w := 0) true rfl rfl)
    |>.works (.miss (w := 0) rfl rfl)
    |>.works (.guard (w := 0) rfl (by decide) rfl)
    |>.works (.leave (w := 0) rfl rfl)
    |>.calls (.join (x := .client 0) rfl nofun rfl)
  have hreport := (hleft.clean_report (x := .client 0) rfl).resolve_left nofun
  exact ⟨_, hleft, rfl, rfl, hreport.2.2 0 rfl⟩

/-- The first call gives up on a worker that runs a task, and the second call reports a clean end
while the worker still runs it. -/
theorem second_report_clean_of_running : ∃ s : Workshop 1 1 Unit, Reachable s ∧
    s.errands (.client 0) = .joining [] [] true ∧ s.workers 0 = .running () ∧ s.accepted = [0] ∧
    s.pool.completed = 0 := by
  have hgaveUp := reachable_submitted
    |>.works (.take (w := 0) rfl rfl)
    |>.works (.run (w := 0) rfl)
    |>.calls (.close (x := .client 0) true ⟨rfl, nofun⟩)
    |>.calls (.rouse (x := .client 0) rfl (by decide))
    |>.calls (.collect (x := .client 0) rfl)
    |>.calls (.giveUp (x := .client 0) rfl nofun nofun)
    |>.calls (.report (x := .client 0) rfl)
  have hsecond := hgaveUp
    |>.calls (.close (x := .client 0) true ⟨rfl, nofun⟩)
    |>.calls (.rouse (x := .client 0) rfl (by decide))
    |>.calls (.collect (x := .client 0) rfl)
  exact ⟨_, hsecond, rfl, rfl, rfl, rfl⟩

end OpFlow.Workshop
