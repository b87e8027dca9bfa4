import OpFlow.Proofs.Settings.Variables

/-!
Layers of settings. A settings file and the environment give settings exactly if each variable that
is set says what its field can take. Every field then comes from the environment if its variable is
set, else from the file if that sets it, else it is the default, and normalising brings all of them
into their ranges.
-/
namespace OpFlow

namespace Settings

variable {α β : Type} {env : String → Option String} {f : FileSettings} {s s' : Settings}

/-- What a field comes to if its variable, where it is set, overrides an old value. -/
def Overridden (said? : Option String) (Says : String → α → Prop) (old v : α) : Prop :=
  match said? with
  | none => v = old
  | some text => Says text v

theorem exists_overridden_iff {said? : Option String} {Says : String → α → Prop} {old : α} :
    (∃ v, Overridden said? Says old v) ↔ ∀ text, said? = some text → ∃ v, Says text v := by
  cases said? with
  | none => simp [Overridden]
  | some text => simp [Overridden]

theorem override_eq_ok_iff {name expected : String} {read? : String → Option α}
    {set : Settings → α → Settings} {Says : String → α → Prop} {old : α}
    (hread : ∀ text v, read? text = some v ↔ Says text v) (hkeep : set s old = s) :
    override env name expected read? set s = .ok s' ↔
      ∃ v, Overridden (env name) Says old v ∧ set s v = s' := by
  unfold override Overridden
  cases env name with
  | none => simp [hkeep]
  | some text =>
    simp only [valueOf, ← hread text]
    cases read? text with
    | none => simp [Functor.map, Except.map]
    | some v => simp [Functor.map, Except.map]

theorem override_map {name expected : String} {read? : String → Option α} (form : α → β)
    (set : Settings → β → Settings) :
    override env name expected read? (fun s v => set s (form v)) s =
      override env name expected (fun text => (read? text).map form) set s := by
  unfold override
  cases env name with
  | none => rfl
  | some text =>
    simp only [valueOf]
    cases read? text <;> rfl

def IsCount (text : String) (threads : Option Nat) : Prop := ∃ n, IsWord text n ∧ some n = threads

theorem map_word?_eq_some_iff (text : String) (threads : Option Nat) :
    (word? text).map some = some threads ↔ IsCount text threads := by
  simp only [Option.map_eq_some_iff, word?_eq_some_iff, IsCount]

/-- The settings that a file and the environment leave, before they are normalised. -/
structure Layers (env : String → Option String) (f : FileSettings) (s : Settings) : Prop where
  workerThreads :
    Overridden (env "THUNKRT_WORKER_THREADS") IsCount f.workerThreads s.workerThreads
  threadNamePrefix :
    Overridden (env "THUNKRT_THREAD_NAME_PREFIX") Eq (f.threadNamePrefix.getD "thunkrt-worker")
      s.threadNamePrefix
  rendezvousTimeout :
    Overridden (env "THUNKRT_RENDEZVOUS_TIMEOUT_MS") IsWord (f.rendezvousTimeout.getD 40000)
      s.rendezvousTimeout
  rendezvousWarnAfter :
    Overridden (env "THUNKRT_RENDEZVOUS_WARN_MS") IsWord (f.rendezvousWarnAfter.getD 10000)
      s.rendezvousWarnAfter
  transitiveReduction :
    Overridden (env "THUNKRT_TRANSITIVE_REDUCTION") IsTruth (f.transitiveReduction.getD true)
      s.transitiveReduction
  verifyFootprints :
    Overridden (env "THUNKRT_VERIFY_FOOTPRINTS") IsTruth (f.verifyFootprints.getD true)
      s.verifyFootprints
  shutdownTimeout : s.shutdownTimeout = 5000

theorem apply_workerThreads (f : FileSettings) : (f.apply {}).workerThreads = f.workerThreads := by
  simp [FileSettings.apply]

theorem bind_eq_ok_iff {ε γ : Type} {x : Except ε α} {g : α → Except ε γ} {c : γ} :
    (x >>= g) = .ok c ↔ ∃ a, x = .ok a ∧ g a = .ok c := by
  cases x <;> simp [bind, Except.bind]

theorem applyEnvironment_eq_ok_iff :
    applyEnvironment env (f.apply {}) = .ok s ↔ Layers env f s := by
  have htext : ∀ text v : String, some text = some v ↔ text = v := fun _ _ => Option.some_inj
  have hthreads := apply_workerThreads f
  simp only [applyEnvironment, bind_eq_ok_iff]
  rw [override_map some fun s v => { s with workerThreads := v }]
  constructor
  · rintro ⟨_, h₁, _, h₂, _, h₃, _, h₄, _, h₅, h₆⟩
    obtain ⟨_, hcount, rfl⟩ := (override_eq_ok_iff map_word?_eq_some_iff rfl).1 h₁
    obtain ⟨_, hname, rfl⟩ := (override_eq_ok_iff htext rfl).1 h₂
    obtain ⟨_, htimeout, rfl⟩ := (override_eq_ok_iff word?_eq_some_iff rfl).1 h₃
    obtain ⟨_, hwarn, rfl⟩ := (override_eq_ok_iff word?_eq_some_iff rfl).1 h₄
    obtain ⟨_, hreduction, rfl⟩ := (override_eq_ok_iff truth?_eq_some_iff rfl).1 h₅
    obtain ⟨_, hverify, rfl⟩ := (override_eq_ok_iff truth?_eq_some_iff rfl).1 h₆
    exact ⟨hthreads ▸ hcount, hname, htimeout, hwarn, hreduction, hverify, rfl⟩
  · rintro ⟨hcount, hname, htimeout, hwarn, hreduction, hverify, hshutdown⟩
    obtain ⟨_, _, _, _, _, _, _⟩ := s
    obtain rfl := hshutdown
    rw [← hthreads] at hcount
    exact ⟨_, (override_eq_ok_iff map_word?_eq_some_iff rfl).2 ⟨_, hcount, rfl⟩,
      _, (override_eq_ok_iff htext rfl).2 ⟨_, hname, rfl⟩,
      _, (override_eq_ok_iff word?_eq_some_iff rfl).2 ⟨_, htimeout, rfl⟩,
      _, (override_eq_ok_iff word?_eq_some_iff rfl).2 ⟨_, hwarn, rfl⟩,
      _, (override_eq_ok_iff truth?_eq_some_iff rfl).2 ⟨_, hreduction, rfl⟩,
      (override_eq_ok_iff truth?_eq_some_iff rfl).2 ⟨_, hverify, rfl⟩⟩

def wordVariables : List String :=
  ["THUNKRT_WORKER_THREADS", "THUNKRT_RENDEZVOUS_TIMEOUT_MS", "THUNKRT_RENDEZVOUS_WARN_MS"]

def truthVariables : List String := ["THUNKRT_TRANSITIVE_REDUCTION", "THUNKRT_VERIFY_FOOTPRINTS"]

/-- There are such settings exactly if no variable is set to what its field cannot take. -/
theorem exists_layers_iff : (∃ s, Layers env f s) ↔
    (∀ name ∈ wordVariables, ∀ text, env name = some text → ∃ n, IsWord text n) ∧
      ∀ name ∈ truthVariables, ∀ text, env name = some text → ∃ b, IsTruth text b := by
  have hcount : ∀ {text}, (∃ threads, IsCount text threads) ↔ ∃ n, IsWord text n :=
    ⟨fun ⟨_, n, hn, _⟩ => ⟨n, hn⟩, fun ⟨n, hn⟩ => ⟨some n, n, hn, rfl⟩⟩
  simp only [wordVariables, truthVariables, List.forall_mem_cons, List.not_mem_nil, false_imp_iff,
    implies_true, and_true]
  constructor
  · rintro ⟨s, h⟩
    exact ⟨⟨fun text htext => hcount.1 (exists_overridden_iff.1 ⟨_, h.workerThreads⟩ text htext),
      exists_overridden_iff.1 ⟨_, h.rendezvousTimeout⟩,
      exists_overridden_iff.1 ⟨_, h.rendezvousWarnAfter⟩⟩,
      exists_overridden_iff.1 ⟨_, h.transitiveReduction⟩,
      exists_overridden_iff.1 ⟨_, h.verifyFootprints⟩⟩
  · rintro ⟨⟨hthreads, htimeout, hwarn⟩, hreduction, hverify⟩
    obtain ⟨threads, hthreads⟩ := exists_overridden_iff.2 fun text htext =>
      hcount.2 (hthreads text htext)
    obtain ⟨name, hname⟩ := exists_overridden_iff.2 fun (text : String) (_ : _ = some text) =>
      ⟨text, rfl⟩
    obtain ⟨timeout, htimeout⟩ := exists_overridden_iff.2 htimeout
    obtain ⟨warn, hwarn⟩ := exists_overridden_iff.2 hwarn
    obtain ⟨reduction, hreduction⟩ := exists_overridden_iff.2 hreduction
    obtain ⟨verify, hverify⟩ := exists_overridden_iff.2 hverify
    exact ⟨⟨threads, name, timeout, warn, reduction, verify, 5000⟩,
      hthreads, hname, htimeout, hwarn, hreduction, hverify, rfl⟩

def threadsOn (machine : Nat) (s : Settings) : Nat := s.workerThreads.getD (max machine 1)

/-- Every field is in its range. -/
structure InRange (s : Settings) : Prop where
  threads : ∀ machine, 0 < s.threadsOn machine
  name : s.threadNamePrefix ≠ ""
  timeout : 0 < s.rendezvousTimeout
  warn : s.rendezvousWarnAfter ≤ s.rendezvousTimeout

theorem inRange_normalize (s : Settings) : s.normalize.InRange where
  threads machine := by
    simp only [threadsOn, normalize]
    cases s.workerThreads with
    | none => exact Nat.lt_of_lt_of_le Nat.zero_lt_one (Nat.le_max_right ..)
    | some n => exact Nat.lt_of_lt_of_le Nat.zero_lt_one (Nat.le_max_right ..)
  name := by
    simp only [normalize]
    split
    · decide
    · assumption
  timeout := Nat.lt_of_lt_of_le Nat.zero_lt_one (Nat.le_max_right ..)
  warn := Nat.min_le_right ..

/-- The settings that come of a file and the environment. -/
def resolve (env : String → Option String) (f : FileSettings) : Except SettingsError Settings :=
  normalize <$> applyEnvironment env (f.apply {})

theorem load_file {parse : String → Option Toml.Entries} {text : String}
    (h : FileSettings.ofText text parse = .ok f) : load env (.file text) parse = resolve env f := by
  rw [load, h]
  rfl

theorem resolve_eq_ok_iff :
    resolve env f = .ok s ↔ ∃ layers, Layers env f layers ∧ layers.normalize = s := by
  simp only [← applyEnvironment_eq_ok_iff, resolve]
  cases applyEnvironment env (f.apply {}) <;> simp [Functor.map, Except.map]

/-- However its text is parsed, loading a settings file comes to what its settings and the environment
resolve to. They resolve exactly if each variable for a number that is set says a word, and each one
for a truth value says one. What comes out has in each field what the environment says, else what the
file says, else the default, and is normalised: every field is in its range, and to normalise it again
changes nothing. -/
theorem layers_precedence (env : String → Option String) (f : FileSettings) :
    (∀ parse text, FileSettings.ofText text parse = .ok f →
      load env (.file text) parse = resolve env f) ∧
    ((∃ s, resolve env f = .ok s) ↔
      (∀ name ∈ wordVariables, ∀ text, env name = some text → ∃ n, IsWord text n) ∧
      ∀ name ∈ truthVariables, ∀ text, env name = some text → ∃ b, IsTruth text b) ∧
    (∀ s, resolve env f = .ok s ↔ ∃ layers, Layers env f layers ∧ layers.normalize = s) ∧
    ∀ s, resolve env f = .ok s → s.InRange ∧ s.normalize = s := by
  refine ⟨fun _ _ => load_file, ?_, fun _ => resolve_eq_ok_iff, fun s h => ?_⟩
  · rw [← exists_layers_iff (f := f)]
    simp only [resolve_eq_ok_iff]
    exact ⟨fun ⟨_, layers, h, _⟩ => ⟨layers, h⟩, fun ⟨layers, h⟩ => ⟨_, layers, h, rfl⟩⟩
  · obtain ⟨layers, -, rfl⟩ := resolve_eq_ok_iff.1 h
    exact ⟨inRange_normalize layers, normalize_normalize layers⟩

def someVariables (name : String) : Option String :=
  if name = "THUNKRT_RENDEZVOUS_TIMEOUT_MS" then some " +007 "
  else if name = "THUNKRT_TRANSITIVE_REDUCTION" then some "oFf\n"
  else none

/-- A file may hold no settings, and the timeout of the environment cuts down the warning of one that
does. -/
theorem layers_precedence_clamped :
    load someVariables (.file "#\n") = resolve someVariables {} ∧
      resolve someVariables { workerThreads := some 3, rendezvousWarnAfter := some 90 } =
        .ok { workerThreads := some 3, rendezvousTimeout := 7, rendezvousWarnAfter := 7,
              transitiveReduction := false } := by
  have hparsed : FileSettings.ofText "#\n" = .ok {} := by cbv
  have htimeout : IsWord " +007 " 7 := by
    have htrimmed : Text.trimmed " +007 " = ['+', '0', '0', '7'] := by
      simp [Text.trimmed, Text.isBlank]
    exact ⟨⟨['0', '0', '7'], .inr htrimmed, by simp, by simp, by simp [digit, Nat.ofDigits]⟩,
      by decide⟩
  have hreduction : IsTruth "oFf\n" false := by
    have htrimmed : Text.trimmed "oFf\n" = ['o', 'F', 'f'] := by
      simp [Text.trimmed, Text.isBlank]
    refine ⟨"off", by simp [wordsFor], ?_⟩
    simp [Spells, htrimmed]
  have hlayers : Layers someVariables { workerThreads := some 3, rendezvousWarnAfter := some 90 }
      { workerThreads := some 3, rendezvousTimeout := 7, rendezvousWarnAfter := 90,
        transitiveReduction := false } := by
    constructor <;> simp [someVariables, Overridden, htimeout, hreduction]
  exact ⟨(layers_precedence someVariables {}).1 _ _ hparsed,
    ((layers_precedence someVariables _).2.2.1 _).2 ⟨_, hlayers, rfl⟩⟩

end Settings

end OpFlow
