/-!
Scalars of the TOML format: numbers, truth values, dates and times, each written as one word without
blanks, and the two forms of quoted strings.
-/
namespace OpFlow.Toml

/-- A run of digits with single underscores between them; gives the digits alone. -/
def digitRun (isDigit : Char → Bool) : List Char → Option (List Char)
  | [] => none
  | [c] => if isDigit c then some [c] else none
  | c :: '_' :: cs => if isDigit c then (c :: ·) <$> digitRun isDigit cs else none
  | c :: cs => if isDigit c then (c :: ·) <$> digitRun isDigit cs else none

def digitsValue (base : Nat) (cs : List Char) : Nat :=
  cs.foldl (fun n c =>
    let d := if c.isDigit then c.toNat - '0'.toNat else c.toLower.toNat - 'a'.toNat + 10
    n * base + d) 0

def isHexDigit (c : Char) : Bool := c.isDigit || ('a' ≤ c && c ≤ 'f') || ('A' ≤ c && c ≤ 'F')

def splitSign : List Char → Bool × List Char
  | '-' :: cs => (true, cs)
  | '+' :: cs => (false, cs)
  | cs => (false, cs)

def decimal? (cs : List Char) : Option (List Char) := do
  let ds ← digitRun Char.isDigit cs
  if ds.length > 1 ∧ ds.head? = some '0' then none else some ds

/-- An integer that fits into 64 bits, decimal or with a prefix for another base. -/
def integer? (word : List Char) : Option Int :=
  let unsigned (isDigit : Char → Bool) (base : Nat) (cs : List Char) : Option Int := do
    let ds ← digitRun isDigit cs
    let n := digitsValue base ds
    if n < Nat.pow 2 63 then some n else none
  match word with
  | '0' :: 'x' :: cs => unsigned isHexDigit 16 cs
  | '0' :: 'o' :: cs => unsigned (fun c => '0' ≤ c && c ≤ '7') 8 cs
  | '0' :: 'b' :: cs => unsigned (fun c => c == '0' || c == '1') 2 cs
  | cs => do
    let (minus, cs) := splitSign cs
    let ds ← decimal? cs
    let n := digitsValue 10 ds
    if minus then if n ≤ Nat.pow 2 63 then some (-n) else none
    else if n < Nat.pow 2 63 then some n else none

def splitAt? (p : Char → Bool) (cs : List Char) : List Char × Option (List Char) :=
  match cs.dropWhile fun c => !p c with
  | [] => (cs, none)
  | _ :: rest => (cs.takeWhile fun c => !p c, some rest)

/-- The least number that no double reaches, halves rounded up: `2 ^ 1024 - 2 ^ 970`. -/
def doubleLimit : Nat := Nat.pow 2 1024 - Nat.pow 2 970

/-- Whether `digits * 10 ^ exponent` lies beyond all doubles. -/
def overflows (digits : Nat) (exponent : Int) : Bool :=
  let length := (toString digits).length
  if digits = 0 then false
  else if (length : Int) + exponent > 320 then true
  else if (length : Int) + exponent < 300 then false
  else if 0 ≤ exponent then doubleLimit ≤ digits * Nat.pow 10 exponent.toNat
  else doubleLimit * Nat.pow 10 (-exponent).toNat ≤ digits

/-- Whether a word is a float: a fraction, an exponent or both, or one of the special names. A
positive number beyond all doubles is none. -/
def isFloat (word : List Char) : Bool :=
  let (minus, cs) := splitSign word
  if cs = ['i', 'n', 'f'] ∨ cs = ['n', 'a', 'n'] then true
  else
    let (mantissa, exponent) := splitAt? (fun c => c == 'e' || c == 'E') cs
    let (whole, fraction) := splitAt? (· == '.') mantissa
    let parts := do
      let w ← decimal? whole
      let f ← match fraction with
        | some f => digitRun Char.isDigit f
        | none => if exponent.isSome then some [] else none
      let e ← match exponent with
        | some e =>
          let (negative, ds) := splitSign e
          let ds ← digitRun Char.isDigit ds
          let n := digitsValue 10 ds
          some (if negative then -(n : Int) else n)
        | none => some 0
      some (digitsValue 10 (w ++ f), e - f.length)
    match parts with
    | some (digits, exponent) => minus || !overflows digits exponent
    | none => false

def fixedDigits? (n : Nat) (cs : List Char) : Option (Nat × List Char) :=
  let ds := cs.take n
  if ds.length = n ∧ ds.all Char.isDigit then some (digitsValue 10 ds, cs.drop n) else none

def daysInMonth (year month : Nat) : Nat :=
  if month = 2 then if year % 4 = 0 ∧ (year % 100 ≠ 0 ∨ year % 400 = 0) then 29 else 28
  else if month = 4 ∨ month = 6 ∨ month = 9 ∨ month = 11 then 30
  else 31

/-- A date at the front of a word, and what follows it. -/
def date? (cs : List Char) : Option (List Char) := do
  let (year, cs) ← fixedDigits? 4 cs
  let cs ← match cs with
    | '-' :: cs => some cs
    | _ => none
  let (month, cs) ← fixedDigits? 2 cs
  let cs ← match cs with
    | '-' :: cs => some cs
    | _ => none
  let (day, cs) ← fixedDigits? 2 cs
  if 1 ≤ month ∧ month ≤ 12 ∧ 1 ≤ day ∧ day ≤ daysInMonth year month then some cs else none

/-- A time of day at the front of a word, and what follows it. -/
def time? (cs : List Char) : Option (List Char) := do
  let (hour, cs) ← fixedDigits? 2 cs
  let cs ← match cs with
    | ':' :: cs => some cs
    | _ => none
  let (minute, cs) ← fixedDigits? 2 cs
  let cs ← match cs with
    | ':' :: cs => some cs
    | _ => none
  let (second, cs) ← fixedDigits? 2 cs
  if 23 < hour ∨ 59 < minute ∨ 60 < second then none
  else match cs with
    | '.' :: rest =>
      if (rest.takeWhile Char.isDigit).isEmpty then none else some (rest.dropWhile Char.isDigit)
    | cs => some cs

/-- Whether a word is an offset from universal time. -/
def isOffset : List Char → Bool
  | ['Z'] | ['z'] => true
  | sign :: cs =>
    (sign == '+' || sign == '-') &&
      match fixedDigits? 2 cs with
      | some (hour, ':' :: cs) =>
        match fixedDigits? 2 cs with
        | some (minute, []) => hour ≤ 23 && minute ≤ 59
        | _ => false
      | _ => false
  | [] => false

/-- Whether a word is a time of day, with an offset if `zoned` allows one. -/
def isTime (zoned : Bool) (cs : List Char) : Bool :=
  match time? cs with
  | some [] => true
  | some rest => zoned && isOffset rest
  | none => false

/-- Whether a word is a date, a time, or both joined by a letter. -/
def isDateTime (word : List Char) : Bool :=
  match date? word with
  | some [] => true
  | some (c :: rest) => (c == 'T' || c == 't') && isTime true rest
  | none => isTime false word

def isDate (word : List Char) : Bool := date? word = some []

def isWordChar (c : Char) : Bool :=
  c.isAlphanum || c == '+' || c == '-' || c == '_' || c == '.' || c == ':'

def isTextChar (c : Char) : Bool := c == '\t' || (32 ≤ c.toNat && c.toNat ≠ 127)

def codePoint? (digits : List Char) : Option Char :=
  let n := digitsValue 16 digits
  if digits.all isHexDigit ∧ n.isValidChar then some (Char.ofNat n) else none

/-- An escape after its backslash: the character it stands for, and the rest. -/
def escape? : List Char → Option (Char × List Char)
  | 'b' :: cs => some ('\x08', cs)
  | 't' :: cs => some ('\t', cs)
  | 'n' :: cs => some ('\n', cs)
  | 'f' :: cs => some ('\x0c', cs)
  | 'r' :: cs => some ('\r', cs)
  | '"' :: cs => some ('"', cs)
  | '\\' :: cs => some ('\\', cs)
  | 'u' :: a :: b :: c :: d :: cs => (·, cs) <$> codePoint? [a, b, c, d]
  | 'U' :: a :: b :: c :: d :: e :: f :: g :: h :: cs =>
    (·, cs) <$> codePoint? [a, b, c, d, e, f, g, h]
  | _ => none

def dropBlankLines : List Char → List Char
  | ' ' :: cs | '\t' :: cs | '\n' :: cs => dropBlankLines cs
  | '\r' :: '\n' :: cs => dropBlankLines cs
  | cs => cs

/-- What follows a backslash at the end of a line: blanks, the line end, and all blank lines. -/
def lineContinuation? (cs : List Char) : Option (List Char) :=
  match cs.dropWhile fun c => c == ' ' || c == '\t' with
  | '\n' :: rest => some (dropBlankLines rest)
  | '\r' :: '\n' :: rest => some (dropBlankLines rest)
  | _ => none

/-- The rest of a string on one line, after its opening quote. Escapes count only if `escapes`. -/
def lineString? (quote : Char) (escapes : Bool) :
    Nat → List Char → Option (List Char × List Char)
  | 0, _ => none
  | _ + 1, [] => none
  | fuel + 1, c :: cs =>
    if c = quote then some ([], cs)
    else if escapes ∧ c = '\\' then do
      let (e, cs) ← escape? cs
      let (text, rest) ← lineString? quote escapes fuel cs
      some (e :: text, rest)
    else if isTextChar c then do
      let (text, rest) ← lineString? quote escapes fuel cs
      some (c :: text, rest)
    else none

/-- The rest of a string over several lines, after its opening quotes. Up to two quotes may stand
before the closing three; a line end is always read as a line feed. -/
def blockString? (quote : Char) (escapes : Bool) :
    Nat → List Char → Option (List Char × List Char)
  | 0, _ => none
  | _ + 1, [] => none
  | fuel + 1, c :: cs =>
    if c = quote then
      let run := 1 + (cs.takeWhile (· == quote)).length
      let rest := cs.dropWhile (· == quote)
      if run < 3 then do
        let (text, rest) ← blockString? quote escapes fuel rest
        some (List.replicate run quote ++ text, rest)
      else if run ≤ 5 then some (List.replicate (run - 3) quote, rest)
      else none
    else if escapes ∧ c = '\\' then
      match lineContinuation? cs with
      | some cs => blockString? quote escapes fuel cs
      | none => do
        let (e, cs) ← escape? cs
        let (text, rest) ← blockString? quote escapes fuel cs
        some (e :: text, rest)
    else if c = '\n' then do
      let (text, rest) ← blockString? quote escapes fuel cs
      some ('\n' :: text, rest)
    else if c = '\r' then
      match cs with
      | '\n' :: cs => do
        let (text, rest) ← blockString? quote escapes fuel cs
        some ('\n' :: text, rest)
      | _ => none
    else if isTextChar c then do
      let (text, rest) ← blockString? quote escapes fuel cs
      some (c :: text, rest)
    else none

def dropFirstNewline : List Char → List Char
  | '\n' :: cs => cs
  | '\r' :: '\n' :: cs => cs
  | cs => cs

/-- A quoted string at the front of a text, over several lines only if `blocks` allows it. -/
def quotedString? (blocks : Bool) (cs : List Char) : Option (String × List Char) :=
  let read := match cs with
    | '"' :: '"' :: '"' :: rest =>
      if blocks then blockString? '"' true cs.length (dropFirstNewline rest)
      else some ([], '"' :: rest)
    | '\'' :: '\'' :: '\'' :: rest =>
      if blocks then blockString? '\'' false cs.length (dropFirstNewline rest)
      else some ([], '\'' :: rest)
    | '"' :: rest => lineString? '"' true cs.length rest
    | '\'' :: rest => lineString? '\'' false cs.length rest
    | _ => none
  read.map fun r => (String.ofList r.1, r.2)

end OpFlow.Toml
