import OpFlow.Buffer.Slice
import OpFlow.Error
import OpFlow.Toml.Document

/-!
Settings of the executor, in layers: the defaults, then a settings file, then environment
variables, then values set by the caller. A later layer overrides an earlier one field by field, and
normalising brings the result into its valid range; normalising twice changes nothing more.
-/
namespace OpFlow

namespace Text

/-- The characters that count as white space: line and paragraph ends, tabs, and all spaces that
have a width, of any script. -/
def isBlank (c : Char) : Bool :=
  let n := c.toNat
  (9 ≤ n && n ≤ 13) || n == 32 || n == 0x85 || n == 0xA0 || n == 0x1680 ||
    (0x2000 ≤ n && n ≤ 0x200A) || n == 0x2028 || n == 0x2029 || n == 0x202F || n == 0x205F ||
    n == 0x3000

def trimmed (s : String) : List Char :=
  let back := (s.toList.dropWhile isBlank).reverse
  (back.dropWhile isBlank).reverse

end Text

/-- The settings, with times in milliseconds. -/
structure Settings where
  /-- The number of worker threads; none stands for as many as the machine runs at once. -/
  workerThreads : Option Nat := none
  threadNamePrefix : String := "thunkrt-worker"
  rendezvousTimeout : Nat := 40000
  rendezvousWarnAfter : Nat := 10000
  transitiveReduction : Bool := true
  verifyFootprints : Bool := true
  shutdownTimeout : Nat := 5000
  deriving DecidableEq, Repr, Inhabited

inductive SettingsError
  | invalidValue (name expected value : String)
  | unreadable (path : String)
  | malformed
  deriving DecidableEq, Repr, Inhabited

namespace SettingsError

/-- What happened; a malformed file speaks for itself. -/
def message : SettingsError → Option String
  | invalidValue name expected value =>
    some ("invalid value for " ++ name ++ ": expected " ++ expected ++ ", got " ++
      Text.quoted value)
  | unreadable path => some ("failed to read config file " ++ path)
  | malformed => none

def toError (e : SettingsError) : Error :=
  match e.message with
  | some m => (Error.configuration m).withForeignCause m
  | none => .ofKind .configuration

end SettingsError

namespace Settings

/-- Brings every field into its valid range. -/
def normalize (s : Settings) : Settings :=
  let timeout := max s.rendezvousTimeout 1
  { s with
    workerThreads := s.workerThreads.map (max · 1)
    threadNamePrefix := if s.threadNamePrefix = "" then "thunkrt-worker" else s.threadNamePrefix
    rendezvousTimeout := timeout
    rendezvousWarnAfter := min s.rendezvousWarnAfter timeout }

theorem normalize_normalize (s : Settings) : s.normalize.normalize = s.normalize := by
  unfold normalize
  simp only [Settings.mk.injEq, Option.map_map]
  refine ⟨?_, ?_, by omega, by omega, ⟨⟩, ⟨⟩, ⟨⟩⟩
  · congr 1
    funext n
    simp
  · split <;> simp_all

/-- An unsigned word: decimal digits, perhaps after a plus sign, with blanks around. -/
def word? (s : String) : Option Nat :=
  let digits := match Text.trimmed s with
    | '+' :: cs => cs
    | cs => cs
  if digits.isEmpty ∨ digits.any (fun c => !c.isDigit) then none
  else
    let n := Toml.digitsValue 10 digits
    if n < wordSize then some n else none

/-- A truth value in words, whatever its case, with blanks around. -/
def truth? (s : String) : Option Bool :=
  let said := String.ofList ((Text.trimmed s).map Char.toLower)
  if said ∈ ["true", "1", "yes", "on"] then some true
  else if said ∈ ["false", "0", "no", "off"] then some false
  else none

def valueOf {α : Type} (read? : String → Option α) (name expected value : String) :
    Except SettingsError α :=
  match read? value with
  | some v => .ok v
  | none => .error (.invalidValue name expected value)

/-- Changes one field if its variable is set. -/
def override {α : Type} (env : String → Option String) (name expected : String)
    (read? : String → Option α) (set : Settings → α → Settings) (s : Settings) :
    Except SettingsError Settings :=
  match env name with
  | none => .ok s
  | some value => set s <$> valueOf read? name expected value

/-- Overrides settings by the variables that are set; the first bad value is the error. -/
def applyEnvironment (env : String → Option String) (s : Settings) :
    Except SettingsError Settings := do
  let count := "unsigned integer"
  let span := "milliseconds as u64"
  let truth := "bool (true/false/1/0/yes/no)"
  let s ← override env "THUNKRT_WORKER_THREADS" count word?
    (fun s v => { s with workerThreads := some v }) s
  let s ← override env "THUNKRT_THREAD_NAME_PREFIX" "" some
    (fun s v => { s with threadNamePrefix := v }) s
  let s ← override env "THUNKRT_RENDEZVOUS_TIMEOUT_MS" span word?
    (fun s v => { s with rendezvousTimeout := v }) s
  let s ← override env "THUNKRT_RENDEZVOUS_WARN_MS" span word?
    (fun s v => { s with rendezvousWarnAfter := v }) s
  let s ← override env "THUNKRT_TRANSITIVE_REDUCTION" truth truth?
    (fun s v => { s with transitiveReduction := v }) s
  override env "THUNKRT_VERIFY_FOOTPRINTS" truth truth?
    (fun s v => { s with verifyFootprints := v }) s

end Settings

/-- What a settings file may set. -/
structure FileSettings where
  workerThreads : Option Nat := none
  threadNamePrefix : Option String := none
  transitiveReduction : Option Bool := none
  verifyFootprints : Option Bool := none
  rendezvousTimeout : Option Nat := none
  rendezvousWarnAfter : Option Nat := none
  deriving DecidableEq, Repr, Inhabited

namespace FileSettings

open Toml (Value Entries)

def count? : Value → Option Nat
  | .integer n => if 0 ≤ n then some n.toNat else none
  | _ => none

def text? : Value → Option String
  | .text s => some s
  | _ => none

def truth? : Value → Option Bool
  | .boolean b => some b
  | _ => none

/-- The values of a section in the order of its fields. A section may be written as a table, or as
an array that gives every field; a date in its place sets nothing. -/
def section? (doc : Entries) (name : String) (fields : List String) :
    Option (List (Option Value)) :=
  match doc.lookup name with
  | none | some .dateTime => some (fields.map fun _ => none)
  | some (.table _ entries) => some (fields.map fun f => List.lookup f entries)
  | some (.array items) =>
    if items.length < fields.length then none else some ((items.take fields.length).map some)
  | some _ => none

def field? {α : Type} (read? : Value → Option α) : Option Value → Option (Option α)
  | none => some none
  | some v => some <$> read? v

/-- The settings in a document; anything unknown in it is passed over. -/
def ofDocument? (doc : Entries) : Option FileSettings := do
  let executor ← section? doc "executor"
    ["worker_threads", "thread_name_prefix", "transitive_reduction", "verify_footprints"]
  let rendezvous ← section? doc "rendezvous" ["timeout_ms", "warn_after_ms"]
  match executor, rendezvous with
  | [threads, name, reduction, verify], [timeout, warn] =>
    some {
      workerThreads := ← field? count? threads
      threadNamePrefix := ← field? text? name
      transitiveReduction := ← field? truth? reduction
      verifyFootprints := ← field? truth? verify
      rendezvousTimeout := ← field? count? timeout
      rendezvousWarnAfter := ← field? count? warn }
  | _, _ => none

/-- The settings in the text of a file. How such a text is parsed is not decided here. -/
def ofText (text : String) (parse : String → Option Entries := Toml.document?) :
    Except SettingsError FileSettings :=
  match parse text >>= ofDocument? with
  | some f => .ok f
  | none => .error .malformed

/-- Overrides settings by those that the file sets. -/
def apply (f : FileSettings) (s : Settings) : Settings :=
  { s with
    workerThreads := f.workerThreads <|> s.workerThreads
    threadNamePrefix := f.threadNamePrefix.getD s.threadNamePrefix
    rendezvousTimeout := f.rendezvousTimeout.getD s.rendezvousTimeout
    rendezvousWarnAfter := f.rendezvousWarnAfter.getD s.rendezvousWarnAfter
    transitiveReduction := f.transitiveReduction.getD s.transitiveReduction
    verifyFootprints := f.verifyFootprints.getD s.verifyFootprints }

end FileSettings

/-- Where settings come from, apart from the environment and the caller. -/
inductive SettingsSource
  /-- The defaults alone. -/
  | defaults
  /-- The environment, normalised. -/
  | environment
  /-- The environment as it stands. -/
  | environmentOnly
  /-- A file that holds this text, then the environment, normalised. -/
  | file (text : String)
  /-- This text alone, as it stands. -/
  | text (text : String)
  /-- A file that cannot be read. -/
  | missingFile (path : String)

namespace Settings

/-- Reads settings from a source. -/
def load (env : String → Option String) (source : SettingsSource)
    (parse : String → Option Toml.Entries := Toml.document?) : Except SettingsError Settings :=
  match source with
  | .defaults => .ok {}
  | .environment => normalize <$> applyEnvironment env {}
  | .environmentOnly => applyEnvironment env {}
  | .file text => do
    let f ← FileSettings.ofText text parse
    normalize <$> applyEnvironment env (f.apply {})
  | .text text => do
    let f ← FileSettings.ofText text parse
    .ok (f.apply {})
  | .missingFile path => .error (.unreadable path)

end Settings

end OpFlow
