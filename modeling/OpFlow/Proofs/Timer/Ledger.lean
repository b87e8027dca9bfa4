import Mathlib.Data.List.Nodup
import OpFlow.Proofs.Timer.Heap
import OpFlow.Timer.Clockwork

/-!
What becomes of the timers of a clockwork. Each one that was set waits, or is in the batch, or was
started, or is gone, and it is so once only. Gone are those that were passed over because they were
cancelled, and, after a panic, the rest of the batch.
-/
namespace OpFlow.Clockwork

variable {m : Nat} {τ : Type} {s s' s₁ : Clockwork m τ} {x : Setter m} {e : TimerEntry τ}

/-! ### What one step does -/

theorem roused_stopped_iff {r : Ringer τ} : r.roused = .stopped ↔ r = .stopped := by
  cases r <;> simp [Ringer.roused]

theorem isCancelled_cancel {t : Timers τ} {id i : Nat} (h : t.isCancelled i = true) :
    (t.cancel id).isCancelled i = true := by
  simp only [Timers.cancel, Timers.isCancelled, List.contains_cons, Bool.or_eq_true] at *
  exact .inr h

theorem Turns.not_stopped (h : Turns s s') : s.ringer ≠ .stopped := by
  cases h with
  | look hs | wake hs | pass hs | start hs | done hs | finish hs | panic hs => simp [hs]

theorem Turns.firings (h : Turns s s') : s'.firings = s.firings ∨
    ∃ e, s.timers.isCancelled e.id = false ∧
      s'.firings = s.firings ++ [⟨e, s.clock, s.rounds⟩] := by
  cases h with
  | start _ _ hcancelled => exact .inr ⟨_, hcancelled, rfl⟩
  | look | wake | pass | done | finish | panic => exact .inl rfl

theorem Sets.firings (h : Sets x s s') : s'.firings = s.firings := by
  cases h <;> rfl

namespace Step

theorem firings (h : Step s s') : s'.firings = s.firings ∨
    ∃ e, s.timers.isCancelled e.id = false ∧
      s'.firings = s.firings ++ [⟨e, s.clock, s.rounds⟩] := by
  cases h with
  | ticks clock _ h => exact .inl (h ▸ rfl)
  | turns h => exact h.firings
  | sets x h => exact .inl h.firings

theorem isCancelled (h : Step s s') {id : Nat} (hid : s.timers.isCancelled id = true) :
    s'.timers.isCancelled id = true := by
  cases h with
  | ticks clock _ h => exact h ▸ hid
  | turns h =>
    cases h with
    | look | wake | pass | start | done | finish | panic => exact hid
  | sets x h =>
    cases h with
    | cancel => exact isCancelled_cancel hid
    | time | add | rouse => exact hid

theorem stopped (h : Step s s') (hs : s.ringer = .stopped) :
    s'.ringer = .stopped ∧ s'.firings = s.firings := by
  cases h with
  | ticks clock _ h => exact h ▸ ⟨hs, rfl⟩
  | turns h => exact absurd hs h.not_stopped
  | sets x h =>
    refine ⟨?_, h.firings⟩
    cases h with
    | rouse => exact roused_stopped_iff.2 hs
    | time | add | cancel => exact hs

/-- Only a panic stops the thread. -/
theorem stops (h : Step s s') (hs : s.ringer ≠ .stopped) (hs' : s'.ringer = .stopped) :
    Turns s s' ∧ s' = s.panic ∧ ∃ e, s.ringer = .running e := by
  cases h with
  | ticks clock _ h => exact absurd hs' (h ▸ hs)
  | turns h =>
    cases h with
    | panic hrunning hcallback => exact ⟨.panic hrunning hcallback, rfl, _, hrunning⟩
    | look =>
      simp only [look, Ringer.next] at hs'
      split at hs' <;> cases hs'
    | pass => exact absurd hs' hs
    | wake | start | done | finish => cases hs'
  | sets x h =>
    cases h with
    | rouse => exact absurd (roused_stopped_iff.1 hs') hs
    | time | add | cancel => exact absurd hs' hs

end Step

namespace Run

theorem isCancelled (h : Run s s') {id : Nat} (hid : s.timers.isCancelled id = true) :
    s'.timers.isCancelled id = true := by
  induction h with
  | refl => exact hid
  | tail _ hs ih => exact hs.isCancelled ih

theorem firings (h : Run s s') : ∃ more, s'.firings = s.firings ++ more ∧
    ∀ f ∈ more, s.timers.isCancelled f.entry.id = false := by
  induction h with
  | refl => exact ⟨[], (List.append_nil _).symm, nofun⟩
  | tail hrun hs ih =>
    obtain ⟨more, heq, hmore⟩ := ih
    rcases hs.firings with hsame | ⟨e, he, hstart⟩
    · exact ⟨more, hsame.trans heq, hmore⟩
    · refine ⟨more ++ [⟨e, _, _⟩], by rw [hstart, heq, List.append_assoc], fun f hf => ?_⟩
      rcases List.mem_append.1 hf with hf | hf
      · exact hmore f hf
      · obtain rfl := List.mem_singleton.1 hf
        exact Bool.eq_false_iff.2 fun hid => by simp [isCancelled hrun hid] at he

theorem stopped (h : Run s s') (hs : s.ringer = .stopped) :
    s'.ringer = .stopped ∧ s'.firings = s.firings := by
  induction h with
  | refl => exact ⟨hs, rfl⟩
  | tail _ hstep ih =>
    have hnext := hstep.stopped ih.1
    exact ⟨hnext.1, hnext.2.trans ih.2⟩

end Run

theorem Reachable.stopped (h : Reachable s) (hs : s.ringer = .stopped) :
    ∃ s₀ e, Reachable s₀ ∧ s₀.ringer = .running e ∧ Turns s₀ s₀.panic ∧ Run s₀.panic s := by
  induction h with
  | refl => cases hs
  | @tail s₁ s₂ hrun hstep ih =>
    by_cases hs₁ : s₁.ringer = .stopped
    · obtain ⟨s₀, e, h₀, hrunning, hpanic, hafter⟩ := ih hs₁
      exact ⟨s₀, e, h₀, hrunning, hpanic, hafter.tail hstep⟩
    · obtain ⟨hpanic, rfl, e, hrunning⟩ := hstep.stops hs₁ hs
      exact ⟨s₁, e, hrun, hrunning, hpanic, .refl⟩

/-! ### The ledger -/

structure Ledger (s : Clockwork m τ) (gone : List (TimerEntry τ)) : Prop where
  numbered : s.entries.map TimerEntry.id = List.range s.timers.scheduled
  perm : s.entries.Perm
    (s.timers.waiting ++ (s.timers.batch ++ (s.firings.map Firing.entry ++ gone)))
  gone : ∀ e ∈ gone, s.timers.isCancelled e.id = true ∨ s.ringer = .stopped

theorem perm_append_move (e : TimerEntry τ) (as bs cs : List (TimerEntry τ)) :
    (e :: as ++ (bs ++ cs)).Perm (as ++ (bs ++ e :: cs)) :=
  ((List.perm_middle.append_left as).trans List.perm_middle).symm

namespace Ledger

variable {gone : List (TimerEntry τ)}

theorem new : Ledger ({} : Clockwork m τ) [] := ⟨rfl, .refl _, nofun⟩

theorem congr (l : Ledger s gone) (htimers : s'.timers = s.timers) (hentries : s'.entries = s.entries)
    (hfirings : s'.firings = s.firings) (hstopped : s.ringer = .stopped → s'.ringer = .stopped) :
    Ledger s' gone := by
  refine ⟨?_, ?_, fun e he => ?_⟩
  · rw [hentries, htimers]
    exact l.numbered
  · rw [hentries, htimers, hfirings]
    exact l.perm
  · rw [htimers]
    exact (l.gone e he).imp_right hstopped

theorem look (l : Ledger s gone) (hs : s.ringer = .awake) : Ledger s.look gone := by
  refine ⟨l.numbered, l.perm.trans ?_, fun e he => .inl ?_⟩
  · have hsplit := List.takeWhile_append_dropWhile (l := s.timers.waiting)
      (p := fun e => e.deadline ≤ max s.timers.now s.clock)
    simp only [Clockwork.look, Timers.readClock]
    nth_rewrite 1 [← hsplit]
    rw [List.append_assoc s.timers.batch]
    refine (List.perm_append_comm.append_right _).trans ?_
    rw [List.append_assoc]
    exact List.perm_append_comm_assoc _ _ _ |>.append_left _
  · exact (l.gone e he).resolve_right (by simp [hs])

theorem pass (l : Ledger s gone) {rest : List (TimerEntry τ)} (hbatch : s.timers.batch = e :: rest)
    (hcancelled : s.timers.isCancelled e.id = true) : Ledger (s.pass rest) (e :: gone) := by
  refine ⟨l.numbered, l.perm.trans ?_, fun e' he' => ?_⟩
  · rw [hbatch]
    exact (perm_append_move e rest _ gone).append_left _
  · rcases List.mem_cons.1 he' with rfl | he'
    · exact .inl hcancelled
    · exact l.gone e' he'

theorem start (l : Ledger s gone) {rest : List (TimerEntry τ)} (hs : s.ringer = .firing)
    (hbatch : s.timers.batch = e :: rest) : Ledger (s.start e rest) gone := by
  refine ⟨l.numbered, l.perm.trans ?_, fun e' he' => .inl ?_⟩
  · rw [hbatch]
    simpa [Clockwork.start, Timers.leave] using
      (perm_append_move e rest (s.firings.map Firing.entry) gone).append_left s.timers.waiting
  · exact (l.gone e' he').resolve_right (by simp [hs])

theorem panic (l : Ledger s gone) : Ledger s.panic (s.timers.batch ++ gone) :=
  ⟨l.numbered, l.perm.trans ((List.perm_append_comm_assoc _ _ _).append_left _),
    fun _ _ => .inr rfl⟩

theorem add (l : Ledger s gone) (deadline : Nat) (callback : τ) :
    Ledger (s.add x deadline callback) gone := by
  refine ⟨?_, ?_, l.gone⟩
  · simp [Clockwork.add, Timers.add, List.range_succ, l.numbered]
  · refine (List.perm_append_singleton _ _).trans ((l.perm.cons _).trans ?_)
    exact (Timers.perm_insert _ _).symm.append_right _

theorem cancel (l : Ledger s gone) (id : Nat) : Ledger (s.cancel id) gone :=
  ⟨l.numbered, l.perm, fun e he => (l.gone e he).imp_left isCancelled_cancel⟩

theorem step (l : Ledger s gone) (h : Step s s') : ∃ gone', Ledger s' gone' := by
  cases h with
  | ticks clock _ h => exact ⟨gone, h ▸ l.congr rfl rfl rfl id⟩
  | turns h =>
    cases h with
    | look hs => exact ⟨gone, l.look hs⟩
    | pass _ hbatch hcancelled => exact ⟨_, l.pass hbatch hcancelled⟩
    | start hs hbatch => exact ⟨gone, l.start hs hbatch⟩
    | panic => exact ⟨_, l.panic⟩
    | wake hs | done hs | finish hs => exact ⟨gone, l.congr rfl rfl rfl (by simp [hs])⟩
  | sets x h =>
    cases h with
    | time => exact ⟨gone, l.congr rfl rfl rfl id⟩
    | add => exact ⟨gone, l.add _ _⟩
    | rouse => exact ⟨gone, l.congr rfl rfl rfl roused_stopped_iff.2⟩
    | cancel => exact ⟨gone, l.cancel _⟩

theorem getElem?_id (l : Ledger s gone) (he : e ∈ s.entries) : s.entries[e.id]? = some e := by
  obtain ⟨i, hi⟩ := List.mem_iff_getElem?.1 he
  have hid : (List.range s.timers.scheduled)[i]? = some e.id := by
    rw [← l.numbered, List.getElem?_map, hi]
    rfl
  obtain ⟨hlt, hget⟩ := List.getElem?_eq_some_iff.1 hid
  rw [List.getElem_range] at hget
  exact hget ▸ hi

theorem id_lt (l : Ledger s gone) (he : e ∈ s.entries) : e.id < s.timers.scheduled :=
  List.mem_range.1 (l.numbered ▸ List.mem_map_of_mem he)

theorem length (l : Ledger s gone) : s.entries.length = s.timers.scheduled := by
  simpa using congrArg List.length l.numbered

theorem mem_iff (l : Ledger s gone) : e ∈ s.entries ↔
    e ∈ s.timers.waiting ∨ e ∈ s.timers.batch ∨ (∃ f ∈ s.firings, f.entry = e) ∨ e ∈ gone := by
  simp only [l.perm.mem_iff, List.mem_append, List.mem_map]

theorem nodup (l : Ledger s gone) : (s.firings.map fun f => f.entry.id).Nodup := by
  have hids : ((s.timers.waiting ++ (s.timers.batch ++ (s.firings.map Firing.entry ++ gone))).map
      TimerEntry.id).Nodup :=
    (l.perm.map TimerEntry.id).nodup (l.numbered ▸ List.nodup_range)
  simp only [List.map_append, List.nodup_append, List.map_map] at hids
  exact hids.2.1.2.1.1

end Ledger

theorem Reachable.ledger (h : Reachable s) : ∃ gone, Ledger s gone := by
  induction h with
  | refl => exact ⟨[], .new⟩
  | tail _ hstep ih =>
    obtain ⟨gone, l⟩ := ih
    exact l.step hstep

end OpFlow.Clockwork
