import OpFlow.Text.Unprintable

/-!
Quoted text: a string between double quotes, with escapes for quotes, backslashes, the usual
controls, and every character that would not show as itself.
-/
namespace OpFlow.Text

def hexDigits (n : Nat) : List Char := Nat.toDigits 16 n

/-- The escaped form of one character. -/
def escapeChar (c : Char) : List Char :=
  match c with
  | '\x00' => ['\\', '0']
  | '\t' => ['\\', 't']
  | '\r' => ['\\', 'r']
  | '\n' => ['\\', 'n']
  | '"' => ['\\', '"']
  | '\\' => ['\\', '\\']
  | c =>
    if isUnprintable c then ['\\', 'u', '\x7b'] ++ hexDigits c.toNat ++ ['\x7d'] else [c]

def quoted (s : String) : String :=
  String.ofList ('"' :: s.toList.flatMap escapeChar ++ ['"'])

def bracketed (items : List String) : String :=
  "[" ++ ", ".intercalate items ++ "]"

def record (name : String) (fields : List (String × String)) : String :=
  name ++ " \x7b " ++ ", ".intercalate (fields.map fun f => f.1 ++ ": " ++ f.2) ++ " \x7d"

def openRecord (name : String) (fields : List (String × String)) : String :=
  name ++ " \x7b " ++ ", ".intercalate (fields.map (fun f => f.1 ++ ": " ++ f.2) ++ [".."]) ++ " \x7d"

def optional (value : Option String) : String :=
  match value with
  | none => "None"
  | some v => "Some(" ++ v ++ ")"

def boolean (b : Bool) : String := if b then "true" else "false"

/-! ### Spans of time

A span counts milliseconds: whole and decimal seconds from one second on, milliseconds below, and
`0ns` for no time at all. -/

/-- The digits after the decimal point of a number of thousandths, without trailing zeros. -/
def thousandths (n : Nat) : String :=
  if n % 10 ≠ 0 then String.ofList
      [Nat.digitChar (n / 100), Nat.digitChar (n / 10 % 10), Nat.digitChar (n % 10)]
  else if n % 100 ≠ 0 then String.ofList [Nat.digitChar (n / 100), Nat.digitChar (n / 10 % 10)]
  else String.ofList [Nat.digitChar (n / 100)]

def duration (ms : Nat) : String :=
  if ms = 0 then "0ns"
  else if ms < 1000 then toString ms ++ "ms"
  else if ms % 1000 = 0 then toString (ms / 1000) ++ "s"
  else toString (ms / 1000) ++ "." ++ thousandths (ms % 1000) ++ "s"

example : duration 150 = "150ms" ∧ duration 40000 = "40s" ∧ duration 1500 = "1.5s" ∧
    duration 1005 = "1.005s" ∧ duration 2250 = "2.25s" := by decide +kernel

end OpFlow.Text
