import OpFlow.Machine
import Mathlib.Logic.Basic

/-!
What can be seen of a world after it has changed: the runs and calls that are in progress, the
runner of each host, and the queues. Each change touches one key of one execution and leaves
everything else as it was.
-/
namespace OpFlow.Machine.World

variable {α σ ι : Type} (w : World α σ ι)

def Knows (r : RunKey) : Prop := (w.execution? r.host r.execution).isSome

theorem knows_of_run? {w : World α σ ι} {r : RunKey} {x : Run α} (h : w.run? r = some x) :
    w.Knows r := by
  simp only [run?, Option.bind_eq_some_iff] at h
  obtain ⟨e, he, -⟩ := h
  simp [Knows, he]

theorem knows_of_call? {w : World α σ ι} {c : CallKey} {x : Call} (h : w.call? c = some x) :
    w.Knows c.run := by
  simp only [call?, Option.bind_eq_some_iff] at h
  obtain ⟨e, he, -⟩ := h
  simp [Knows, he]

theorem execution?_modifyHost (h : Nat) (f : Host α → Host α)
    (hf : ∀ x, (f x).executions = x.executions) (k e : Nat) :
    (w.modifyHost h f).execution? k e = w.execution? k e := by
  simp only [execution?, modifyHost, Array.getElem?_modify]
  by_cases hk : h = k
  · subst hk
    cases w.hosts[h]? <;> simp [hf]
  · simp [hk]

theorem execution?_modifyExecution (r : RunKey) (f : Execution α → Execution α) (k e : Nat) :
    (w.modifyExecution r f).execution? k e =
      if r.host = k ∧ r.execution = e then (w.execution? k e).map f else w.execution? k e := by
  simp only [execution?, modifyExecution, modifyHost, Array.getElem?_modify]
  by_cases hk : r.host = k
  · subst hk
    cases w.hosts[r.host]? with
    | none => simp
    | some h => by_cases he : r.execution = e <;> simp [Array.getElem?_modify, he]
  · simp [hk]

section Run

variable (r r' : RunKey) (c : CallKey) (x : Run α) (y : Call)

@[simp] theorem run?_push (items : List (Item α ι)) : (w.push items).run? r = w.run? r := rfl
@[simp] theorem call?_push (items : List (Item α ι)) : (w.push items).call? c = w.call? c := rfl
@[simp] theorem run?_count (f : Stats → Stats) : (w.count r' f).run? r = w.run? r := by
  unfold count
  split
  · simp only [run?]
    rw [execution?_modifyHost]
    exact fun _ => rfl
  · rfl
@[simp] theorem call?_count (f : Stats → Stats) : (w.count r' f).call? c = w.call? c := by
  unfold count
  split
  · simp only [call?]
    rw [execution?_modifyHost]
    exact fun _ => rfl
  · rfl
@[simp] theorem run?_setRunner (i : Nat) (q : Runner (Task ι)) :
    (w.setRunner i q).run? r = w.run? r := rfl
@[simp] theorem call?_setRunner (i : Nat) (q : Runner (Task ι)) :
    (w.setRunner i q).call? c = w.call? c := rfl

theorem run?_setRun : (w.setRun r' x).run? r =
    if r = r' then (if (w.execution? r.host r.execution).isSome then some x else none)
    else w.run? r := by
  simp only [run?, setRun]
  rw [execution?_modifyExecution]
  by_cases h : r = r'
  · subst h
    cases w.execution? r.host r.execution <;> simp
  · by_cases hk : r'.host = r.host ∧ r'.execution = r.execution
    · have hs : r'.scope ≠ r.scope := fun hs => h (by
        cases r; cases r'; simp_all)
      simp only [hk, and_self, if_true, h, if_false]
      cases w.execution? r.host r.execution <;> simp [Assoc.get?_set_of_ne _ hs]
    · simp [hk, h]

theorem run?_setRun_of_knows (hr : w.Knows r') :
    (w.setRun r' x).run? r = if r = r' then some x else w.run? r := by
  rw [run?_setRun]
  split
  · subst_vars
    exact if_pos hr
  · rfl

@[simp] theorem call?_setRun : (w.setRun r' x).call? c = w.call? c := by
  simp only [call?, setRun]
  rw [execution?_modifyExecution]
  split
  · cases w.execution? c.run.host c.run.execution <;> simp
  · rfl

theorem run?_eraseRun : (w.eraseRun r').run? r = if r = r' then none else w.run? r := by
  simp only [run?, eraseRun]
  rw [execution?_modifyExecution]
  by_cases h : r = r'
  · subst h
    cases w.execution? r.host r.execution <;> simp
  · by_cases hk : r'.host = r.host ∧ r'.execution = r.execution
    · have hs : r'.scope ≠ r.scope := fun hs => h (by
        cases r; cases r'; simp_all)
      simp only [hk, and_self, if_true, h, if_false]
      cases w.execution? r.host r.execution <;> simp [Assoc.get?_erase_of_ne _ hs]
    · simp [hk, h]

@[simp] theorem call?_eraseRun : (w.eraseRun r').call? c = w.call? c := by
  simp only [call?, eraseRun]
  rw [execution?_modifyExecution]
  split
  · cases w.execution? c.run.host c.run.execution <;> simp
  · rfl

end Run

section Call

variable (r : RunKey) (c c' : CallKey) (y : Call)

@[simp] theorem run?_setCall : (w.setCall c' y).run? r = w.run? r := by
  simp only [run?, setCall]
  rw [execution?_modifyExecution]
  split
  · cases w.execution? r.host r.execution <;> simp
  · rfl

theorem key_ne {c c' : CallKey} (h : c ≠ c') (hh : c'.run.host = c.run.host)
    (he : c'.run.execution = c.run.execution) :
    (c'.run.scope, c'.node) ≠ (c.run.scope, c.node) := by
  rintro hk
  obtain ⟨hs, hn⟩ := Prod.mk.inj hk
  obtain ⟨⟨_, _, _⟩, _⟩ := c
  obtain ⟨⟨_, _, _⟩, _⟩ := c'
  simp_all

theorem call?_setCall : (w.setCall c' y).call? c =
    if c = c' then (if (w.execution? c.run.host c.run.execution).isSome then some y else none)
    else w.call? c := by
  simp only [call?, setCall]
  rw [execution?_modifyExecution]
  by_cases h : c = c'
  · subst h
    cases w.execution? c.run.host c.run.execution <;> simp
  · by_cases hk : c'.run.host = c.run.host ∧ c'.run.execution = c.run.execution
    · simp only [hk, and_self, if_true, h, if_false]
      cases w.execution? c.run.host c.run.execution <;>
        simp [Assoc.get?_set_of_ne _ (key_ne h hk.1 hk.2)]
    · simp [hk, h]

theorem call?_setCall_of_knows (hc : w.Knows c'.run) :
    (w.setCall c' y).call? c = if c = c' then some y else w.call? c := by
  rw [call?_setCall]
  split
  · subst_vars
    exact if_pos hc
  · rfl

@[simp] theorem run?_eraseCall : (w.eraseCall c').run? r = w.run? r := by
  simp only [run?, eraseCall]
  rw [execution?_modifyExecution]
  split
  · cases w.execution? r.host r.execution <;> simp
  · rfl

theorem call?_eraseCall : (w.eraseCall c').call? c = if c = c' then none else w.call? c := by
  simp only [call?, eraseCall]
  rw [execution?_modifyExecution]
  by_cases h : c = c'
  · subst h
    cases w.execution? c.run.host c.run.execution <;> simp
  · by_cases hk : c'.run.host = c.run.host ∧ c'.run.execution = c.run.execution
    · simp only [hk, and_self, if_true, h, if_false]
      cases w.execution? c.run.host c.run.execution <;>
        simp [Assoc.get?_erase_of_ne _ (key_ne h hk.1 hk.2)]
    · simp [hk, h]

end Call

section Knows

variable (r r' : RunKey)

theorem knows_modifyExecution (f : Execution α → Execution α) :
    (w.modifyExecution r' f).Knows r ↔ w.Knows r := by
  rw [Knows, Knows, execution?_modifyExecution]
  split <;> simp

@[simp] theorem knows_push (items : List (Item α ι)) : (w.push items).Knows r ↔ w.Knows r := .rfl
@[simp] theorem knows_setRunner (i : Nat) (q : Runner (Task ι)) :
    (w.setRunner i q).Knows r ↔ w.Knows r := .rfl
@[simp] theorem knows_setRun (x : Run α) : (w.setRun r' x).Knows r ↔ w.Knows r :=
  knows_modifyExecution ..
@[simp] theorem knows_eraseRun : (w.eraseRun r').Knows r ↔ w.Knows r := knows_modifyExecution ..
@[simp] theorem knows_setCall (c : CallKey) (y : Call) : (w.setCall c y).Knows r ↔ w.Knows r :=
  knows_modifyExecution ..
@[simp] theorem knows_eraseCall (c : CallKey) : (w.eraseCall c).Knows r ↔ w.Knows r :=
  knows_modifyExecution ..
@[simp] theorem knows_count (f : Stats → Stats) : (w.count r' f).Knows r ↔ w.Knows r := by
  unfold count
  split
  · rw [Knows, execution?_modifyHost]
    · rfl
    · exact fun _ => rfl
  · rfl

end Knows

section Runner

theorem runnerOf?_modifyHost (h : Nat) (f : Host α → Host α)
    (hf : ∀ x, (f x).runner = x.runner) (k : Nat) :
    (w.modifyHost h f).runnerOf? k = w.runnerOf? k := by
  simp only [runnerOf?, modifyHost, Array.getElem?_modify]
  by_cases hk : h = k
  · subst hk
    cases w.hosts[h]? <;> simp [hf]
  · simp [hk]

variable (r : RunKey) (k : Nat)

@[simp] theorem runnerOf?_modifyExecution (f : Execution α → Execution α) :
    (w.modifyExecution r f).runnerOf? k = w.runnerOf? k :=
  runnerOf?_modifyHost w r.host (fun h => { h with executions := h.executions.modify r.execution f })
    (fun _ => rfl) k

@[simp] theorem runnerOf?_push (items : List (Item α ι)) :
    (w.push items).runnerOf? k = w.runnerOf? k := rfl
@[simp] theorem runnerOf?_setRunner (i : Nat) (q : Runner (Task ι)) :
    (w.setRunner i q).runnerOf? k = w.runnerOf? k := rfl
@[simp] theorem runnerOf?_setRun (x : Run α) : (w.setRun r x).runnerOf? k = w.runnerOf? k :=
  runnerOf?_modifyExecution ..
@[simp] theorem runnerOf?_eraseRun : (w.eraseRun r).runnerOf? k = w.runnerOf? k :=
  runnerOf?_modifyExecution ..
@[simp] theorem runnerOf?_setCall (c : CallKey) (y : Call) :
    (w.setCall c y).runnerOf? k = w.runnerOf? k := runnerOf?_modifyExecution ..
@[simp] theorem runnerOf?_eraseCall (c : CallKey) :
    (w.eraseCall c).runnerOf? k = w.runnerOf? k := runnerOf?_modifyExecution ..
@[simp] theorem runnerOf?_count (f : Stats → Stats) :
    (w.count r f).runnerOf? k = w.runnerOf? k := by
  unfold count
  split
  · exact runnerOf?_modifyHost w r.host (fun h => { h with stats := f h.stats }) (fun _ => rfl) k
  · rfl

@[simp] theorem runners_setRun (x : Run α) : (w.setRun r x).runners = w.runners := rfl
@[simp] theorem runners_eraseRun : (w.eraseRun r).runners = w.runners := rfl
@[simp] theorem runners_setCall (c : CallKey) (y : Call) :
    (w.setCall c y).runners = w.runners := rfl
@[simp] theorem runners_eraseCall (c : CallKey) : (w.eraseCall c).runners = w.runners := rfl
@[simp] theorem runners_push (items : List (Item α ι)) : (w.push items).runners = w.runners := rfl
@[simp] theorem runners_count (f : Stats → Stats) : (w.count r f).runners = w.runners := by
  unfold count
  split <;> rfl

@[simp] theorem agenda_setRun (x : Run α) : (w.setRun r x).agenda = w.agenda := rfl
@[simp] theorem agenda_eraseRun : (w.eraseRun r).agenda = w.agenda := rfl
@[simp] theorem agenda_setCall (c : CallKey) (y : Call) : (w.setCall c y).agenda = w.agenda := rfl
@[simp] theorem agenda_eraseCall (c : CallKey) : (w.eraseCall c).agenda = w.agenda := rfl
@[simp] theorem agenda_push (items : List (Item α ι)) :
    (w.push items).agenda = items ++ w.agenda := rfl
@[simp] theorem agenda_count (f : Stats → Stats) : (w.count r f).agenda = w.agenda := by
  unfold count
  split <;> rfl

end Runner

end OpFlow.Machine.World
