import Mathlib.Data.List.TakeWhile
import OpFlow.Proofs.Timer.Ledger

/-!
The rounds of the thread that fires timers. Each time it reads the clock it takes the timers that are
due, in their order, and starts them one after the other before it reads the clock again. When it
goes to sleep, none that it could see is due; its alarm rings for the first of those that wait, and
whoever sets an earlier one in the meantime is about to wake it.
-/
namespace OpFlow

namespace Timers

variable {τ : Type} {t : Timers τ} {e : TimerEntry τ} {es : List (TimerEntry τ)} {now : Nat}

theorem Sorted.sublist {es' : List (TimerEntry τ)} (h : Sorted es) (hsub : es'.Sublist es) :
    Sorted es' := List.Pairwise.sublist hsub h

theorem lt_deadline_of_mem_dropWhile (h : Sorted es)
    (he : e ∈ es.dropWhile fun e => e.deadline ≤ now) : now < e.deadline := by
  induction es with
  | nil => cases he
  | cons x xs ih =>
    obtain ⟨hx, hxs⟩ := List.pairwise_cons.1 h
    by_cases hdue : x.deadline ≤ now
    · exact ih hxs (by simpa [hdue] using he)
    · rw [List.dropWhile_cons_of_neg (by simpa using hdue)] at he
      rcases List.mem_cons.1 he with rfl | he
      · exact Nat.lt_of_not_le hdue
      · have := hx e he
        omega

theorem exists_nextDeadline?_le (h : Sorted t.waiting) (he : e ∈ t.waiting) :
    ∃ a, t.nextDeadline? = some a ∧ a ≤ e.deadline := by
  cases hwaiting : t.waiting with
  | nil => simp [hwaiting] at he
  | cons x xs =>
    rw [hwaiting] at h he
    refine ⟨x.deadline, by simp [nextDeadline?, hwaiting], ?_⟩
    rcases List.mem_cons.1 he with rfl | he
    · exact Nat.le_refl _
    · have := (List.pairwise_cons.1 h).1 e he
      omega

end Timers

namespace Ringer

variable {τ : Type}

def fires : Ringer τ → Bool
  | firing | running _ => true
  | awake | asleep _ | stopped => false

@[simp] theorem fires_roused (r : Ringer τ) : r.roused.fires = r.fires := by
  cases r <;> rfl

theorem next_eq_asleep {t : Timers τ} {alarm : Option Nat} (h : next t = .asleep alarm) :
    t.batch = [] ∧ alarm = t.nextDeadline? := by
  unfold next at h
  split at h
  next hbatch => exact ⟨hbatch, by cases h; rfl⟩
  next => cases h

theorem batch_of_fires_next {t : Timers τ} (h : (next t).fires = false) : t.batch = [] := by
  unfold next at h
  split at h
  next hbatch => exact hbatch
  next => cases h

end Ringer

namespace Clockwork

variable {m : Nat} {τ : Type} {s s' : Clockwork m τ} {x : Setter m}
  {gone : List (TimerEntry τ)}

/-! ### The order of firing -/

/-- The timers are in order, those of the last round behind what it has already started. -/
structure Ordered (s : Clockwork m τ) : Prop where
  waiting : Timers.Sorted s.timers.waiting
  batch : Timers.Sorted s.timers.batch
  idle : s.ringer.fires = false → s.timers.batch = []
  round_le : ∀ f ∈ s.firings, f.round ≤ s.rounds
  fired : s.firings.Pairwise fun f g => f.round = g.round → f.entry.Before g.entry
  last : ∀ f ∈ s.firings, f.round = s.rounds → ∀ e ∈ s.timers.batch, f.entry.Before e

namespace Ordered

theorem new : Ordered ({} : Clockwork m τ) := ⟨.nil, .nil, fun _ => rfl, nofun, .nil, nofun⟩

theorem look (o : Ordered s) (hs : s.ringer = .awake) : Ordered s.look := by
  have hbatch : s.timers.batch = [] := o.idle (by simp [hs, Ringer.fires])
  refine ⟨o.waiting.sublist (List.dropWhile_sublist _), ?_, Ringer.batch_of_fires_next,
    fun f hf => Nat.le_succ_of_le (o.round_le f hf), o.fired, fun f hf hround => ?_⟩
  · simp only [Clockwork.look, Timers.readClock, hbatch, List.nil_append]
    exact o.waiting.sublist (List.takeWhile_sublist _)
  · have := o.round_le f hf
    simp only [Clockwork.look] at hround
    omega

theorem pass (o : Ordered s) {e : TimerEntry τ} {rest : List (TimerEntry τ)}
    (hs : s.ringer = .firing) (hbatch : s.timers.batch = e :: rest) : Ordered (s.pass rest) := by
  have hsorted := o.batch
  rw [hbatch] at hsorted
  refine ⟨o.waiting, hsorted.sublist (List.sublist_cons_self e rest), ?_, o.round_le, o.fired, ?_⟩
  · intro hidle
    simp [Clockwork.pass, hs, Ringer.fires] at hidle
  · exact fun f hf hround e' he' => o.last f hf hround e' (hbatch ▸ List.mem_cons_of_mem e he')

theorem start (o : Ordered s) {e : TimerEntry τ} {rest : List (TimerEntry τ)}
    (hbatch : s.timers.batch = e :: rest) : Ordered (s.start e rest) := by
  have hsorted := o.batch
  rw [hbatch] at hsorted
  refine ⟨o.waiting, hsorted.sublist (List.sublist_cons_self e rest), nofun, ?_, ?_, ?_⟩
  · intro f hf
    rcases List.mem_append.1 hf with hf | hf
    · exact o.round_le f hf
    · obtain rfl := List.mem_singleton.1 hf
      exact Nat.le_refl _
  · refine List.pairwise_append.2 ⟨o.fired, List.pairwise_singleton _ _, fun f hf g hg hround => ?_⟩
    obtain rfl := List.mem_singleton.1 hg
    exact o.last f hf hround e (hbatch ▸ List.mem_cons_self)
  · intro f hf hround e' he'
    rcases List.mem_append.1 hf with hf | hf
    · exact o.last f hf hround e' (hbatch ▸ List.mem_cons_of_mem e he')
    · obtain rfl := List.mem_singleton.1 hf
      exact (List.pairwise_cons.1 hsorted).1 e' he'

theorem panic (o : Ordered s) : Ordered s.panic :=
  ⟨o.waiting, .nil, fun _ => rfl, o.round_le, o.fired, fun _ _ _ => nofun⟩

theorem add (o : Ordered s) (l : Ledger s gone) (deadline : Nat) (callback : τ) :
    Ordered (s.add x deadline callback) :=
  ⟨Timers.sorted_insert o.waiting fun _ he => l.id_lt (l.mem_iff.2 (.inl he)), o.batch, o.idle,
    o.round_le, o.fired, o.last⟩

theorem step (o : Ordered s) (l : Ledger s gone) (h : Step s s') : Ordered s' := by
  cases h with
  | ticks clock _ h => exact h ▸ { o with }
  | turns h =>
    cases h with
    | look hs => exact o.look hs
    | pass hs hbatch => exact o.pass hs hbatch
    | start _ hbatch => exact o.start hbatch
    | panic => exact o.panic
    | wake hs => exact { o with idle := fun _ => o.idle (by simp [hs, Ringer.fires]) }
    | done _ hbatch => exact { o with idle := fun _ => hbatch }
    | finish => exact { o with idle := nofun }
  | sets x h =>
    cases h with
    | time | cancel => exact { o with }
    | add => exact o.add l _ _
    | rouse =>
      exact { o with idle := fun hidle => o.idle ((Ringer.fires_roused _).symm.trans hidle) }

end Ordered

theorem Reachable.ordered (h : Reachable s) : Ordered s := by
  induction h with
  | refl => exact .new
  | tail hrun hstep ih =>
    obtain ⟨gone, l⟩ := Reachable.ledger hrun
    exact ih.step l hstep

/-! ### Deadlines -/

/-- Nothing is taken or started before its deadline, and what the thread has left to wait was not due
when it looked. -/
structure Timely (s : Clockwork m τ) : Prop where
  now_le : s.timers.now ≤ s.clock
  seen_le : s.seen ≤ s.timers.scheduled
  late : ∀ e ∈ s.timers.waiting, e.id < s.seen → s.timers.now < e.deadline
  due : ∀ e ∈ s.timers.batch, e.deadline ≤ s.timers.now
  fired : ∀ f ∈ s.firings, f.entry.deadline ≤ f.clock

namespace Timely

theorem new : Timely ({} : Clockwork m τ) := ⟨Nat.le_refl _, Nat.le_refl _, nofun, nofun, nofun⟩

theorem look (t : Timely s) (o : Ordered s) (l : Ledger s gone) : Timely s.look := by
  refine ⟨Nat.max_le.2 ⟨t.now_le, Nat.le_refl _⟩, Nat.le_of_eq l.length,
    fun e he _ => Timers.lt_deadline_of_mem_dropWhile o.waiting he, fun e he => ?_, t.fired⟩
  rcases List.mem_append.1 he with he | he
  · exact Nat.le_trans (t.due e he) (Nat.le_max_left _ _)
  · have hdue := List.mem_takeWhile_imp he
    exact of_decide_eq_true hdue

theorem leave (t : Timely s) {e : TimerEntry τ} {rest : List (TimerEntry τ)}
    (hbatch : s.timers.batch = e :: rest) : ∀ e' ∈ rest, e'.deadline ≤ s.timers.now :=
  fun e' he' => t.due e' (hbatch ▸ List.mem_cons_of_mem e he')

theorem start (t : Timely s) {e : TimerEntry τ} {rest : List (TimerEntry τ)}
    (hbatch : s.timers.batch = e :: rest) : Timely (s.start e rest) := by
  refine ⟨t.now_le, t.seen_le, t.late, t.leave hbatch, fun f hf => ?_⟩
  rcases List.mem_append.1 hf with hf | hf
  · exact t.fired f hf
  · obtain rfl := List.mem_singleton.1 hf
    exact Nat.le_trans (t.due e (hbatch ▸ List.mem_cons_self)) t.now_le

theorem add (t : Timely s) (deadline : Nat) (callback : τ) :
    Timely (s.add x deadline callback) := by
  refine ⟨t.now_le, Nat.le_succ_of_le t.seen_le, fun e he hseen => ?_, t.due, t.fired⟩
  rcases Timers.mem_insert.1 he with rfl | he
  · exact absurd t.seen_le (Nat.not_le.2 hseen)
  · exact t.late e he hseen

theorem step (t : Timely s) (o : Ordered s) (l : Ledger s gone) (h : Step s s') : Timely s' := by
  cases h with
  | ticks clock hle h => exact h ▸ { t with now_le := Nat.le_trans t.now_le hle }
  | turns h =>
    cases h with
    | look => exact t.look o l
    | pass _ hbatch => exact { t with due := t.leave hbatch }
    | start _ hbatch => exact t.start hbatch
    | panic => exact { t with due := nofun }
    | wake | done | finish => exact { t with }
  | sets x h =>
    cases h with
    | add => exact t.add _ _
    | time | rouse | cancel => exact { t with }

end Timely

theorem Reachable.timely (h : Reachable s) : Timely s := by
  induction h with
  | refl => exact .new
  | tail hrun hstep ih =>
    obtain ⟨gone, l⟩ := Reachable.ledger hrun
    exact ih.step (Reachable.ordered hrun) l hstep

/-! ### Alarms -/

/-- A callback sets timers only while it is run; and a thread that sleeps will wake up in time for
each timer, be it that a thread outside which has just set it is about to wake it. -/
structure Alarmed (s : Clockwork m τ) : Prop where
  callback : s.settings .callback ≠ .none → ∃ e, s.ringer = .running e
  alarm : ∀ alarm, s.ringer = .asleep alarm → ∀ e ∈ s.timers.waiting,
    (∃ a, alarm = some a ∧ a ≤ e.deadline) ∨ ∃ c, s.settings (.client c) = .added e.id

namespace Alarmed

theorem new : Alarmed ({} : Clockwork m τ) := ⟨fun h => absurd rfl h, nofun⟩

theorem callback_eq_none (a : Alarmed s) (hs : ∀ e, s.ringer ≠ .running e) :
    s.settings .callback = .none := by
  by_contra hcallback
  obtain ⟨e, he⟩ := a.callback hcallback
  exact hs e he

theorem look (a : Alarmed s) (o : Ordered s) (hs : s.ringer = .awake) : Alarmed s.look := by
  have hnone : s.look.settings .callback = .none := a.callback_eq_none (by simp [hs])
  refine ⟨fun h => absurd hnone h, fun alarm hasleep e he => .inl ?_⟩
  obtain ⟨-, rfl⟩ := Ringer.next_eq_asleep hasleep
  exact Timers.exists_nextDeadline?_le (o.look hs).waiting he

theorem of_awake (hcallback : s.settings .callback = .none)
    (hs : ∀ alarm, s.ringer ≠ .asleep alarm) : Alarmed s :=
  ⟨fun h => absurd hcallback h, fun alarm hasleep => absurd hasleep (hs alarm)⟩

theorem time (a : Alarmed s) (hx : s.MaySet x) (deadline : Nat) (callback : τ) :
    Alarmed (s.send x (.timed deadline callback)) := by
  refine ⟨fun h => ?_, fun alarm hasleep e he => (a.alarm alarm hasleep e he).imp_right ?_⟩
  · by_cases hxc : x = .callback
    · exact hx.2 hxc
    · rw [send_settings_of_ne _ _ (Ne.symm hxc)] at h
      exact a.callback h
  · rintro ⟨c, hc⟩
    have hne : Setter.client c ≠ x := by
      rintro rfl
      exact absurd (hx.1.symm.trans hc) nofun
    exact ⟨c, (send_settings_of_ne _ _ hne).trans hc⟩

theorem add (a : Alarmed s) {deadline : Nat} {callback : τ}
    (hx : s.settings x = .timed deadline callback) : Alarmed (s.add x deadline callback) := by
  refine ⟨fun h => ?_, fun alarm hasleep e he => ?_⟩
  · by_cases hxc : x = .callback
    · exact a.callback (by rw [← hxc, hx]; nofun)
    · exact a.callback fun hnone => h ((send_settings_of_ne _ _ (Ne.symm hxc)).trans hnone)
  · cases x with
    | callback =>
      obtain ⟨e', he'⟩ := a.callback (by rw [hx]; nofun)
      exact absurd (he'.symm.trans hasleep) nofun
    | client c =>
      rcases Timers.mem_insert.1 he with rfl | he
      · exact .inr ⟨c, send_settings_self ..⟩
      · refine (a.alarm alarm hasleep e he).imp_right ?_
        rintro ⟨c', hc'⟩
        have hne : Setter.client c' ≠ Setter.client c := by
          intro heq
          rw [heq, hx] at hc'
          cases hc'
        exact ⟨c', (send_settings_of_ne _ _ hne).trans hc'⟩

theorem rouse (a : Alarmed s) : Alarmed (s.rouse x) := by
  refine ⟨fun h => ?_, fun alarm hasleep => ?_⟩
  · have hcallback : s.settings .callback ≠ .none := by
      intro hnone
      by_cases hxc : x = .callback
      · exact h (hxc ▸ send_settings_self ..)
      · exact h ((send_settings_of_ne _ _ (Ne.symm hxc)).trans hnone)
    obtain ⟨e, he⟩ := a.callback hcallback
    exact ⟨e, by simp [Clockwork.rouse, put, he, Ringer.roused]⟩
  · have : s.ringer.roused ≠ .asleep alarm := by
      cases s.ringer <;> simp [Ringer.roused]
    exact absurd hasleep this

theorem step (a : Alarmed s) (o : Ordered s) (h : Step s s') : Alarmed s' := by
  cases h with
  | ticks clock hle h => exact h ▸ { a with }
  | turns h =>
    cases h with
    | look hs => exact a.look o hs
    | pass => exact { a with }
    | wake hs | start hs | done hs => exact .of_awake (a.callback_eq_none (by simp [hs])) nofun
    | finish _ hx | panic _ hx => exact .of_awake hx nofun
  | sets x h =>
    cases h with
    | time _ _ hx => exact a.time hx _ _
    | add hx => exact a.add hx
    | rouse => exact a.rouse
    | cancel => exact { a with }

end Alarmed

theorem Reachable.alarmed (h : Reachable s) : Alarmed s := by
  induction h with
  | refl => exact .new
  | tail hrun hstep ih => exact ih.step (Reachable.ordered hrun) hstep

end Clockwork

end OpFlow
