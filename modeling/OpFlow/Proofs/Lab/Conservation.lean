import OpFlow.Runner.Lab
import Mathlib.Data.List.Perm.Basic

/-!
Conservation of tasks in a lab. A journal beside the lab notes which tasks were submitted, started,
returned and panicked. Whatever the tasks do when they are started, each submission is either still
queued or was started once, and nothing else is ever started; only a task that returns is counted;
and a lab that has run until it is idle holds nothing and says how many tasks it ran.
-/
namespace OpFlow

namespace Lab

variable {τ : Type}

/-! ### One task out of the queue -/

/-- Taking a task out moves another into its place and loses none. -/
theorem perm_swapRemove {queue : Array τ} {i : Nat} (hi : i < queue.size) :
    queue.toList.Perm (queue[i] :: (swapRemove queue i).toList) := by
  obtain ⟨l⟩ := queue
  rcases List.eq_nil_or_concat' l with rfl | ⟨init, last, rfl⟩
  · exact absurd hi (Nat.not_lt_zero _)
  · have hremoved : (swapRemove (init ++ [last]).toArray i).toList =
        ((init ++ [last]).set i last).dropLast := by
      simp [swapRemove]
    rw [hremoved]
    rcases Nat.lt_or_ge i init.length with hlt | hge
    · have hget : (init ++ [last]).toArray[i] = init[i] := by simp [List.getElem_append_left hlt]
      rw [hget, List.set_append_left _ _ hlt, List.dropLast_concat]
      calc (init ++ [last]).Perm (last :: init) := List.perm_append_singleton ..
        _ |>.Perm (last :: init[i] :: init.eraseIdx i) :=
          (List.getElem_cons_eraseIdx_perm hlt).symm.cons last
        _ |>.Perm (init[i] :: last :: init.eraseIdx i) := .swap ..
        _ |>.Perm (init[i] :: init.set i last) := (List.set_perm_cons_eraseIdx hlt last).symm.cons _
    · have hi' : i = init.length := by
        simp at hi
        omega
      subst hi'
      simp

theorem take?_eq_none_iff {l : Lab τ} : l.take? = none ↔ l.queue = #[] := by
  rw [← Option.not_isSome_iff_eq_none, take?_isSome_iff, Array.size_pos_iff, not_not]

theorem perm_of_take? {l l' : Lab τ} {t : τ} (h : l.take? = some (t, l')) :
    l.queue.toList.Perm (t :: l'.queue.toList) ∧ l'.executed = l.executed := by
  unfold take? at h
  dsimp only at h
  split at h
  · next hget =>
    obtain ⟨hi, rfl⟩ := Array.getElem?_eq_some_iff.1 hget
    obtain ⟨rfl, rfl⟩ := Prod.mk.inj (Option.some.inj h)
    exact ⟨perm_swapRemove hi, rfl⟩
  · cases h

@[simp] theorem toList_queue_submit (l : Lab τ) (t : τ) :
    (l.submit t).queue.toList = l.queue.toList ++ [t] := by
  simp [submit]

@[simp] theorem executed_submits (l : Lab τ) (ts : List τ) :
    (ts.foldl submit l).executed = l.executed := by
  induction ts generalizing l with
  | nil => rfl
  | cons t ts ih => exact ih (l.submit t)

@[simp] theorem toList_queue_submits (l : Lab τ) (ts : List τ) :
    (ts.foldl submit l).queue.toList = l.queue.toList ++ ts := by
  induction ts generalizing l with
  | nil => simp
  | cons t ts ih => rw [List.foldl_cons, ih, toList_queue_submit, List.append_assoc]; rfl

/-! ### Journals -/

/-- A lab with notes of what has become of its tasks, in the order in which it happened. -/
structure Journal (τ : Type) where
  lab : Lab τ
  submitted : List τ := []
  started : List τ := []
  returned : List τ := []
  panicked : List τ := []

namespace Journal

def queued (j : Journal τ) : List τ := j.lab.queue.toList

def submit (j : Journal τ) (t : τ) : Journal τ :=
  { j with lab := j.lab.submit t, submitted := j.submitted ++ [t] }

/-- A task was started, and left the lab `l` and submitted others in it. -/
def start (j : Journal τ) (t : τ) (l : Lab τ) (children : List τ) : Journal τ :=
  { j with
    lab := children.foldl Lab.submit l
    submitted := j.submitted ++ children
    started := j.started ++ [t] }

def returns (j : Journal τ) (t : τ) : Journal τ :=
  { j with lab := j.lab.returned, returned := j.returned ++ [t] }

def panics (j : Journal τ) (t : τ) : Journal τ := { j with panicked := j.panicked ++ [t] }

/-- A step of the lab. What a task does when it is started is open: it may submit any tasks, and
return or panic. -/
inductive Steps : Journal τ → LabStep → Journal τ → Prop
  | idle {j : Journal τ} (h : j.lab.take? = none) : Steps j .idle j
  | ran {j : Journal τ} {t : τ} {l : Lab τ} (h : j.lab.take? = some (t, l)) (children : List τ) :
      Steps j .ran ((j.start t l children).returns t)
  | panicked {j : Journal τ} {t : τ} {l : Lab τ} (h : j.lab.take? = some (t, l))
      (children : List τ) (text : String) :
      Steps j (.panicked text) ((j.start t l children).panics t)

/-- Steps until no task is queued, which are counted, or until one panics. -/
inductive Drains : Journal τ → Except String Nat → Journal τ → Prop
  | idle {j j' : Journal τ} (h : Steps j .idle j') : Drains j (.ok 0) j'
  | ran {j j' j'' : Journal τ} {answer : Except String Nat} (h : Steps j .ran j')
      (hd : Drains j' answer j'') : Drains j (answer.map (· + 1)) j''
  | panicked {j j' : Journal τ} {text : String} (h : Steps j (.panicked text) j') :
      Drains j (.error text) j'

/-- What the calls from outside make of a new lab. -/
inductive Course (seed : UInt64) : Journal τ → Prop
  | new : Course seed { lab := .ofSeed seed }
  | submit {j : Journal τ} (h : Course seed j) (t : τ) : Course seed (j.submit t)
  | step {j j' : Journal τ} {answer : LabStep} (h : Course seed j) (hs : Steps j answer j') :
      Course seed j'
  | drain {j j' : Journal τ} {answer : Except String Nat} (h : Course seed j)
      (hd : Drains j answer j') : Course seed j'

variable {j j' : Journal τ}

@[simp] theorem queued_start (t : τ) (l : Lab τ) (children : List τ) :
    (j.start t l children).queued = l.queue.toList ++ children :=
  toList_queue_submits l children

@[simp] theorem queued_returns (t : τ) : (j.returns t).queued = j.queued := rfl

@[simp] theorem queued_panics (t : τ) : (j.panics t).queued = j.queued := rfl

structure Balanced (j : Journal τ) : Prop where
  conserved : j.submitted.Perm (j.started ++ j.queued)
  ended : j.started.Perm (j.returned ++ j.panicked)
  executed : j.lab.executed = j.returned.length

theorem Balanced.submit (h : j.Balanced) (t : τ) : (j.submit t).Balanced where
  conserved := by
    have hqueued : (j.submit t).queued = j.queued ++ [t] := toList_queue_submit ..
    rw [hqueued, ← List.append_assoc]
    exact h.conserved.append_right [t]
  ended := h.ended
  executed := h.executed

theorem Balanced.conserved_start (h : j.Balanced) {t : τ} {l : Lab τ}
    (ht : j.lab.take? = some (t, l)) (children : List τ) :
    (j.submitted ++ children).Perm (j.started ++ [t] ++ (l.queue.toList ++ children)) := by
  have hqueue : j.queued.Perm (t :: l.queue.toList) := (perm_of_take? ht).1
  have hmoved : j.submitted.Perm (j.started ++ [t] ++ l.queue.toList) := by
    rw [List.append_assoc]
    exact h.conserved.trans (hqueue.append_left _)
  rw [← List.append_assoc]
  exact hmoved.append_right children

theorem Balanced.step (h : j.Balanced) {answer : LabStep} (hs : Steps j answer j') :
    j'.Balanced := by
  cases hs with
  | idle => exact h
  | @ran t l ht children =>
    refine ⟨?_, ?_, ?_⟩
    · rw [queued_returns, queued_start]
      exact h.conserved_start ht children
    · -- the task that returns stands before all that panicked
      calc (j.started ++ [t]).Perm (j.returned ++ j.panicked ++ [t]) := h.ended.append_right _
        _ |>.Perm (j.returned ++ [t] ++ j.panicked) := by
          rw [List.append_assoc, List.append_assoc]
          exact List.perm_append_comm.append_left _
    · change (children.foldl Lab.submit l).executed + 1 = (j.returned ++ [t]).length
      rw [executed_submits, (perm_of_take? ht).2, h.executed, List.length_append]
      rfl
  | @panicked t l ht children text =>
    refine ⟨?_, ?_, ?_⟩
    · rw [queued_panics, queued_start]
      exact h.conserved_start ht children
    · change (j.started ++ [t]).Perm (j.returned ++ (j.panicked ++ [t]))
      rw [← List.append_assoc]
      exact h.ended.append_right _
    · change (children.foldl Lab.submit l).executed = j.returned.length
      rw [executed_submits, (perm_of_take? ht).2, h.executed]

theorem Balanced.drain (h : j.Balanced) {answer : Except String Nat} (hd : Drains j answer j') :
    j'.Balanced := by
  induction hd with
  | idle hs => exact h.step hs
  | ran hs _ ih => exact ih (h.step hs)
  | panicked hs => exact h.step hs

theorem Course.balanced {seed : UInt64} (h : Course seed j) : j.Balanced := by
  induction h with
  | new => exact ⟨.refl _, .refl _, rfl⟩
  | submit _ t ih => exact ih.submit t
  | step _ hs ih => exact ih.step hs
  | drain _ hd ih => exact ih.drain hd

theorem Steps.started {answer : LabStep} (hs : Steps j answer j') :
    (answer = .idle ∧ j.queued = [] ∧ j' = j) ∨
    ∃ t rest children, answer ≠ .idle ∧ j.queued.Perm (t :: rest) ∧
      j'.queued = rest ++ children ∧ j'.started = j.started ++ [t] ∧
      j'.submitted = j.submitted ++ children := by
  cases hs with
  | idle ht =>
    exact .inl ⟨rfl, by rw [queued, take?_eq_none_iff.1 ht], rfl⟩
  | ran ht children =>
    exact .inr ⟨_, _, children, nofun, (perm_of_take? ht).1, toList_queue_submits .., rfl, rfl⟩
  | panicked ht children text =>
    exact .inr ⟨_, _, children, nofun, (perm_of_take? ht).1, toList_queue_submits .., rfl, rfl⟩

theorem Drains.drained {answer : Except String Nat} (hd : Drains j answer j') {n : Nat}
    (hn : answer = .ok n) : j'.queued = [] ∧ j'.started.length = j.started.length + n := by
  induction hd generalizing n with
  | idle hs =>
    cases hs with
    | idle ht =>
      obtain rfl := Except.ok.inj hn
      exact ⟨by rw [queued, take?_eq_none_iff.1 ht], rfl⟩
  | @ran j j' j'' answer hs hd ih =>
    rcases hs.started with ⟨hidle, -⟩ | ⟨t, -, -, -, -, -, hstarted, -⟩
    · cases hidle
    cases answer with
    | error text => cases hn
    | ok m =>
      obtain rfl := Except.ok.inj hn
      obtain ⟨hempty, hlength⟩ := ih rfl
      refine ⟨hempty, ?_⟩
      rw [hlength, hstarted, List.length_append, List.length_singleton]
      exact Nat.add_right_comm .. |>.trans (Nat.add_assoc ..)
  | panicked => cases hn

end Journal

end Lab

/-! ### Tasks that say what they do -/

namespace LabTask

theorem size_eq (t : LabTask) : t.size = sizes t.children + 1 := by
  cases t
  rfl

theorem sizes_append (ts us : List LabTask) : sizes (ts ++ us) = sizes ts + sizes us := by
  induction ts with
  | nil => simp [sizes]
  | cons t ts ih => simp only [List.cons_append, sizes, ih, Nat.add_assoc]

theorem sizes_perm {ts us : List LabTask} (h : ts.Perm us) : sizes ts = sizes us := by
  induction h with
  | nil => rfl
  | cons t _ ih => simp only [sizes, ih]
  | swap t u ts => simp only [sizes, Nat.add_left_comm]
  | trans _ _ ih ih' => exact ih.trans ih'

end LabTask

namespace Lab

namespace Journal

/-- A step of a lab whose tasks say what they do is one of its steps, and gives the name of the task
that was started. Each such step makes what is left to do smaller. -/
theorem steps_step (j : Journal LabTask) :
    ∃ j', Steps j j.lab.step.2.1 j' ∧ j'.lab = j.lab.step.1 ∧
      j'.started.map LabTask.id = j.started.map LabTask.id ++ j.lab.step.2.2 ∧
      (j.lab.step.2.1 ≠ .idle → LabTask.sizes j'.queued + 1 = LabTask.sizes j.queued) := by
  cases ht : j.lab.take? with
  | none =>
    have hstep : j.lab.step = (j.lab, .idle, []) := by simp only [step, ht]
    rw [hstep]
    exact ⟨j, .idle ht, rfl, (List.append_nil _).symm, fun h => (h rfl).elim⟩
  | some x =>
    obtain ⟨t, l⟩ := x
    have hsizes : LabTask.sizes (l.queue.toList ++ t.children) + 1 = LabTask.sizes j.queued := by
      rw [queued, LabTask.sizes_perm (perm_of_take? ht).1, LabTask.sizes_append, LabTask.sizes,
        t.size_eq]
      omega
    by_cases hpanics : t.panics = true
    · have hstep : j.lab.step =
          (t.children.foldl Lab.submit l, .panicked "task panicked", [t.id]) := by
        simp only [step, ht, hpanics, if_true]
      rw [hstep]
      refine ⟨_, .panicked ht t.children _, rfl, List.map_append, fun _ => ?_⟩
      rw [queued_panics, queued_start, hsizes]
    · have hstep : j.lab.step = ((t.children.foldl Lab.submit l).returned, .ran, [t.id]) := by
        simp only [step, ht, if_neg hpanics]
      rw [hstep]
      refine ⟨_, .ran ht t.children, rfl, List.map_append, fun _ => ?_⟩
      rw [queued_returns, queued_start, hsizes]

theorem drains_stepsUpTo {limit : Nat} (j : Journal LabTask)
    (hlimit : LabTask.sizes j.queued < limit) :
    ∃ j', Drains j (j.lab.stepsUpTo limit).2.1 j' ∧ j'.lab = (j.lab.stepsUpTo limit).1 ∧
      j'.started.map LabTask.id = j.started.map LabTask.id ++ (j.lab.stepsUpTo limit).2.2 := by
  induction limit generalizing j with
  | zero => exact absurd hlimit (Nat.not_lt_zero _)
  | succ limit ih =>
    obtain ⟨j', hs, hlab, hstarted, hsizes⟩ := j.steps_step
    rw [stepsUpTo]
    generalize j.lab.step = x at hs hlab hstarted hsizes
    obtain ⟨l, answer, ids⟩ := x
    cases answer with
    | idle =>
      have hj : j' = j := by cases hs with | idle => rfl
      subst hj hlab
      exact ⟨j', .idle hs, rfl, (List.append_nil _).symm⟩
    | panicked text => exact ⟨j', .panicked hs, hlab, hstarted⟩
    | ran =>
      have hless := hsizes nofun
      obtain ⟨j'', hd, hlab', hstarted'⟩ := ih j' (by omega)
      subst hlab
      refine ⟨j'', .ran hs hd, hlab', ?_⟩
      rw [hstarted', hstarted, List.append_assoc]

theorem drains_runUntilIdle (j : Journal LabTask) :
    ∃ j', Drains j j.lab.runUntilIdle.2.1 j' ∧ j'.lab = j.lab.runUntilIdle.1 ∧
      j'.started.map LabTask.id = j.started.map LabTask.id ++ j.lab.runUntilIdle.2.2 :=
  j.drains_stepsUpTo (Nat.lt_succ_self _)

end Journal

end Lab

end OpFlow
