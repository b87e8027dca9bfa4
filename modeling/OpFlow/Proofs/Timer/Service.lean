import OpFlow.Proofs.Timer.Rounds

/-!
What can be relied on of timers. Callbacks are started at or after their deadlines, each once, in
order within one round, and not after they were cancelled. But the thread is there only until a
callback panics: from then on timers are still accepted, and none fires.
-/
namespace OpFlow

namespace Timers

variable {τ : Type} {t : Timers τ} {e : TimerEntry τ} {rest : List (TimerEntry τ)}

theorem fire?_leave (hbatch : t.batch = e :: rest) (he : t.isCancelled e.id = true) :
    (t.leave rest).fire? = t.fire? := by
  simp only [fire?, hbatch, List.dropWhile_cons, he, if_true]
  rfl

theorem fire?_eq_some (hbatch : t.batch = e :: rest) (he : t.isCancelled e.id = false) :
    t.fire? = some (e, t.leave rest) := by
  simp only [fire?, hbatch, List.dropWhile_cons, he, Bool.false_eq_true, if_false]
  rfl

theorem firedUpTo_eq_nil (hbatch : t.batch = []) (limit : Nat) : t.firedUpTo limit = [] := by
  cases limit <;> simp [firedUpTo, fire?, hbatch]

end Timers

namespace Clockwork

variable {m : Nat} {τ : Type} {s : Clockwork m τ} {e : TimerEntry τ}

/-! ### Undisturbed runs -/

def set (s : Clockwork m τ) (c : Fin m) (delay : Nat) (callback : τ) : Clockwork m τ :=
  ((s.send (.client c) (.timed (s.clock + delay) callback)).add (.client c) (s.clock + delay)
    callback).rouse (.client c)

theorem run_set {c : Fin m} (hc : s.settings (.client c) = .none) (delay : Nat) (callback : τ) :
    Run s (s.set c delay callback) := by
  have htime : Run s _ := Run.sets .refl (.time delay callback ⟨hc, nofun⟩)
  have hadd : Run s _ := htime.sets (.add (send_settings_self ..))
  exact hadd.sets (.rouse (send_settings_self ..))

theorem set_settings (c : Fin m) (delay : Nat) (callback : τ) :
    (s.set c delay callback).settings (.client c) = .none := send_settings_self ..

theorem set_timers (hnow : s.timers.now = s.clock) (c : Fin m) (delay : Nat) (callback : τ) :
    (s.set c delay callback).timers = (s.timers.schedule delay callback).1 := by
  rw [Timers.schedule_eq, hnow]
  rfl

theorem exists_run_fire {t : Timers τ} (hs : s.ringer = .firing)
    (ht : s.timers.fire? = some (e, t)) : ∃ s', Run s s' ∧ s'.timers = t ∧ s'.ringer = .running e ∧
      s'.settings = s.settings ∧ s'.firings = s.firings ++ [⟨e, s.clock, s.rounds⟩] := by
  induction hbatch : s.timers.batch generalizing s with
  | nil => simp [Timers.fire?, hbatch] at ht
  | cons x rest ih =>
    cases hx : s.timers.isCancelled x.id with
    | true =>
      obtain ⟨s', hrun, hafter⟩ :=
        @ih (s.pass rest) hs ((Timers.fire?_leave hbatch hx).trans ht) rfl
      exact ⟨s', (Run.turns .refl (.pass hs hbatch hx)).trans hrun, hafter⟩
    | false =>
      cases (Timers.fire?_eq_some hbatch hx).symm.trans ht
      exact ⟨s.start e rest, Run.turns .refl (.start hs hbatch hx), rfl, rfl, rfl, rfl⟩

theorem exists_run_firedUpTo (limit : Nat) (hs : s.ringer = .firing)
    (hcallback : s.settings .callback = .none) : ∃ s', Run s s' ∧
      s'.firings.map Firing.entry = s.firings.map Firing.entry ++ s.timers.firedUpTo limit := by
  induction limit generalizing s with
  | zero => exact ⟨s, .refl, by simp [Timers.firedUpTo]⟩
  | succ limit ih =>
    cases ht : s.timers.fire? with
    | none => exact ⟨s, .refl, by simp [Timers.firedUpTo, ht]⟩
    | some next =>
      obtain ⟨e, t⟩ := next
      obtain ⟨s₁, hrun, rfl, hrunning, hsettings, hfirings⟩ := exists_run_fire hs ht
      have hnone : s₁.settings .callback = .none := hsettings ▸ hcallback
      obtain ⟨s', hrest, heq⟩ := @ih (s₁.put .firing) rfl hnone
      refine ⟨s', (hrun.turns (.finish hrunning hnone)).trans hrest, ?_⟩
      simp [heq, put, hfirings, Timers.firedUpTo, ht]

/-- A thread that nobody disturbs starts the timers that fire by the time on its clock. -/
theorem Reachable.exists_run_firedBy (h : Reachable s) (hs : s.ringer = .awake) : ∃ s', Run s s' ∧
    s'.firings.map Firing.entry = s.firings.map Firing.entry ++ s.timers.firedBy s.clock := by
  have hlook : Run s s.look := Run.turns .refl (.look hs)
  cases hbatch : s.look.timers.batch with
  | nil =>
    have hnothing : s.timers.firedBy s.clock = [] := Timers.firedUpTo_eq_nil hbatch _
    exact ⟨s.look, hlook, by rw [hnothing, List.append_nil]; rfl⟩
  | cons e rest =>
    have hfiring : s.look.ringer = .firing := by
      simp only [look] at hbatch ⊢
      simp [Ringer.next, hbatch]
    obtain ⟨s', hrun, heq⟩ := exists_run_firedUpTo
      (s.timers.batch.length + s.timers.waiting.length) hfiring
      (h.alarmed.callback_eq_none (by simp [hs]))
    exact ⟨s', hlook.trans hrun, heq⟩

/-! ### What can be relied on -/

theorem Reachable.not_lost (h : Reachable s) (hs : s.ringer ≠ .stopped) (he : e ∈ s.entries) :
    e ∈ s.timers.waiting ∨ e ∈ s.timers.batch ∨ (∃ f ∈ s.firings, f.entry = e) ∨
      s.timers.isCancelled e.id = true := by
  obtain ⟨gone, l⟩ := h.ledger
  exact (l.mem_iff.1 he).imp_right (Or.imp_right (Or.imp_right fun hgone =>
    (l.gone e hgone).resolve_right hs))

theorem Reachable.not_due (h : Reachable s) {alarm : Option Nat} (hs : s.ringer = .asleep alarm)
    (he : e ∈ s.entries) (hseen : e.id < s.seen) (hdue : e.deadline ≤ s.timers.now) :
    (∃ f ∈ s.firings, f.entry = e) ∨ s.timers.isCancelled e.id = true := by
  have hbatch : s.timers.batch = [] := h.ordered.idle (by simp [hs, Ringer.fires])
  rcases h.not_lost (by simp [hs]) he with hwaiting | hbatched | hdone
  · exact absurd hdue (Nat.not_le.2 (h.timely.late e hwaiting hseen))
  · simp [hbatch] at hbatched
  · exact hdone

theorem Reachable.look_eq_drain (h : Reachable s) (hs : s.ringer = .awake)
    {heap expired left : List (TimerEntry τ)} (hperm : heap.Perm s.timers.waiting)
    (hdrain : Drains s.clock heap expired left) :
    s.look.timers.batch = expired ∧ left.Perm s.look.timers.waiting ∧
      ∀ e rest alarm, Pops left e rest → s.look.ringer = .asleep alarm →
        alarm = some e.deadline := by
  have hbatch : s.timers.batch = [] := h.ordered.idle (by simp [hs, Ringer.fires])
  rw [← Nat.max_eq_right h.timely.now_le] at hdrain
  obtain ⟨htaken, hleft⟩ := hdrain.readClock h.ordered.waiting hperm
  rw [hbatch, List.nil_append] at htaken
  refine ⟨htaken, hleft, fun e rest alarm htop hasleep => ?_⟩
  obtain ⟨-, rfl⟩ := Ringer.next_eq_asleep hasleep
  exact htop.nextDeadline?_eq (h.turns (.look hs)).ordered.waiting hleft

/-- Timers fire at or after their deadlines, once, in order within a round, and not once they were
cancelled; and if nothing comes between, all fire that are due. As long as the thread is there none is
lost, and none that it saw to be due is left when it sleeps. It stops only by a panic, and then
nothing fires any more. -/
theorem Reachable.fires_until_panic (h : Reachable s) :
    (∀ f ∈ s.firings, s.entries[f.entry.id]? = some f.entry ∧ f.entry.deadline ≤ f.clock) ∧
    (s.firings.map fun f => f.entry.id).Nodup ∧
    (s.firings.Pairwise fun f g => f.round = g.round → f.entry.Before g.entry) ∧
    (∀ s', Run s s' → ∃ more, s'.firings = s.firings ++ more ∧
      ∀ f ∈ more, s.timers.isCancelled f.entry.id = false) ∧
    (s.ringer = .awake → ∀ heap expired left, heap.Perm s.timers.waiting →
      Drains s.clock heap expired left →
        s.look.timers.batch = expired ∧ left.Perm s.look.timers.waiting ∧
          ∀ e rest alarm, Pops left e rest → s.look.ringer = .asleep alarm →
            alarm = some e.deadline) ∧
    (s.ringer = .awake → ∃ s', Run s s' ∧
      s'.firings.map Firing.entry = s.firings.map Firing.entry ++ s.timers.firedBy s.clock) ∧
    (s.ringer ≠ .stopped → ∀ e ∈ s.entries,
      e ∈ s.timers.waiting ∨ e ∈ s.timers.batch ∨ (∃ f ∈ s.firings, f.entry = e) ∨
        s.timers.isCancelled e.id = true) ∧
    (∀ alarm, s.ringer = .asleep alarm →
      (∀ e ∈ s.entries, e.id < s.seen → e.deadline ≤ s.timers.now →
        (∃ f ∈ s.firings, f.entry = e) ∨ s.timers.isCancelled e.id = true) ∧
      ∀ e ∈ s.timers.waiting,
        (∃ a, alarm = some a ∧ a ≤ e.deadline) ∨ ∃ c, s.settings (.client c) = .added e.id) ∧
    (s.ringer = .stopped →
      (∃ s₀ e, Reachable s₀ ∧ s₀.ringer = .running e ∧ Turns s₀ s₀.panic ∧ Run s₀.panic s) ∧
      ∀ s', Run s s' → s'.ringer = .stopped ∧ s'.firings = s.firings) := by
  obtain ⟨gone, l⟩ := h.ledger
  refine ⟨fun f hf => ⟨?_, h.timely.fired f hf⟩, l.nodup, h.ordered.fired, fun s' => Run.firings,
    fun hs heap expired left => h.look_eq_drain hs, h.exists_run_firedBy, fun hs e => h.not_lost hs,
    fun alarm hs => ⟨fun e => h.not_due hs, h.alarmed.alarm alarm hs⟩,
    fun hs => ⟨h.stopped hs, fun s' hrun => hrun.stopped hs⟩⟩
  exact l.getElem?_id (l.mem_iff.2 (.inr (.inr (.inl ⟨f, hf, rfl⟩))))

def sole : Fin 1 := Fin.last 0

/-- Three timers: the first is due last, and the third is cancelled while the second one's callback is
run. -/
def overtaken : Clockwork 1 Unit :=
  let s : Clockwork 1 Unit := ((({} : Clockwork 1 Unit).set sole 5 ()).set sole 0 ()).set sole 0 ()
  let s := (s.tick 5).look.start ⟨1, 0, ()⟩ [⟨2, 0, ()⟩, ⟨0, 5, ()⟩]
  let s := (((s.cancel 2).put .firing).pass [⟨0, 5, ()⟩]).start ⟨0, 5, ()⟩ []
  ((s.put .firing).put .awake).look

theorem reachable_overtaken : Reachable overtaken := by
  have hset : Reachable (((({} : Clockwork 1 Unit).set sole 5 ()).set sole 0 ()).set sole 0 ()) :=
    ((Reachable.new.run (run_set rfl 5 ())).run (run_set (set_settings ..) 0 ())).run
      (run_set (set_settings ..) 0 ())
  have hlook := (hset.ticks (show _ ≤ 5 by decide)).turns (.look rfl)
  have hstart := hlook.turns (.start rfl rfl rfl)
  have hcancel := hstart.sets (x := .client sole) (.cancel ⟨rfl, nofun⟩ (show 2 < _ by decide))
  have hpass := (hcancel.turns (.finish rfl rfl)).turns (.pass rfl rfl rfl)
  have hlast := hpass.turns (.start rfl rfl rfl)
  exact ((hlast.turns (.finish rfl rfl)).turns (.done rfl rfl)).turns (.look rfl)

theorem fires_until_panic_overtaken :
    Reachable overtaken ∧ overtaken.ringer = .asleep none ∧
      (overtaken.firings.map fun f => f.entry.id) = [1, 0] ∧
      (∀ f ∈ overtaken.firings, overtaken.entries[f.entry.id]? = some f.entry ∧
        f.entry.deadline ≤ f.clock) ∧
      ∀ e ∈ overtaken.entries, e.id < overtaken.seen → e.deadline ≤ overtaken.timers.now →
        (∃ f ∈ overtaken.firings, f.entry = e) ∨ overtaken.timers.isCancelled e.id = true := by
  have hall := reachable_overtaken.fires_until_panic
  exact ⟨reachable_overtaken, rfl, rfl, hall.1, (hall.2.2.2.2.2.2.2.1 none rfl).1⟩

def panicked : Clockwork 1 Unit :=
  let s : Clockwork 1 Unit := ((({} : Clockwork 1 Unit).set sole 0 ()).set sole 0 ()).set sole 5 ()
  (s.look.start ⟨0, 0, ()⟩ [⟨1, 0, ()⟩]).panic.tick 5

theorem reachable_panicked : Reachable panicked := by
  have hset : Reachable (((({} : Clockwork 1 Unit).set sole 0 ()).set sole 0 ()).set sole 5 ()) :=
    ((Reachable.new.run (run_set rfl 0 ())).run (run_set (set_settings ..) 0 ())).run
      (run_set (set_settings ..) 5 ())
  have hstart := (hset.turns (.look rfl)).turns (.start rfl rfl rfl)
  exact (hstart.turns (.panic rfl rfl)).ticks (by decide)

theorem panicked_strands_timers :
    Reachable panicked ∧ panicked.ringer = .stopped ∧
      (panicked.entries.map TimerEntry.id) = [0, 1, 2] ∧
      (∀ e ∈ panicked.entries, e.deadline ≤ panicked.clock ∧
        panicked.timers.isCancelled e.id = false) ∧
      (panicked.timers.waiting.map TimerEntry.id) = [2] ∧
      ∀ s, Run panicked s → s.ringer = .stopped ∧ (s.firings.map fun f => f.entry.id) = [0] := by
  refine ⟨reachable_panicked, rfl, rfl, by decide, rfl, fun s hrun => ?_⟩
  obtain ⟨hstopped, hfirings⟩ := hrun.stopped rfl
  exact ⟨hstopped, by rw [hfirings]; rfl⟩

end Clockwork

end OpFlow
