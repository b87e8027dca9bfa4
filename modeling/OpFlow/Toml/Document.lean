import OpFlow.Toml.Scalar
import OpFlow.Toml.Table

/-!
Documents of the TOML format: lines that add values under keys, or open tables by headers. Reading
gives the finished table of the whole document, or nothing if the text is no document.
-/
namespace OpFlow.Toml

def isBlank (c : Char) : Bool := c == ' ' || c == '\t'

def dropBlanks (cs : List Char) : List Char := cs.dropWhile isBlank

def isKeyChar (c : Char) : Bool := c.isAlphanum || c == '_' || c == '-'

/-- One part of a key. -/
def keyPart? (cs : List Char) : Option (String × List Char) :=
  match cs with
  | '"' :: _ | '\'' :: _ => quotedString? false cs
  | _ =>
    let name := cs.takeWhile isKeyChar
    if name.isEmpty then none else some (String.ofList name, cs.dropWhile isKeyChar)

/-- How deep arrays and tables in braces may be nested, and how long a dotted key may be. -/
def depthLimit : Nat := 80

/-- A key of up to `limit` parts with points between them; blanks around a part do not count. -/
def key? : Nat → List Char → Option (List String × List Char)
  | 0, _ => none
  | limit + 1, cs => do
    let (part, cs) ← keyPart? (dropBlanks cs)
    match dropBlanks cs with
    | '.' :: rest =>
      let (parts, rest) ← key? limit rest
      some (part :: parts, rest)
    | rest => some ([part], rest)

def dropComment? (cs : List Char) : Option (List Char) :=
  let rest := cs.dropWhile isTextChar
  match rest with
  | [] | '\n' :: _ | '\r' :: '\n' :: _ => some rest
  | _ => none

/-- What follows blanks, line ends and comments inside an array. -/
def dropLayout? : Nat → List Char → Option (List Char)
  | 0, cs => some cs
  | fuel + 1, cs =>
    match dropBlanks cs with
    | '#' :: rest => do
      let rest ← dropComment? rest
      dropLayout? fuel rest
    | '\n' :: rest => dropLayout? fuel rest
    | '\r' :: '\n' :: rest => dropLayout? fuel rest
    | rest => some rest

/-- A value without quotes or brackets, by its word. -/
def word? (cs : List Char) : Option (Value × List Char) :=
  let word := cs.takeWhile isWordChar
  let rest := cs.dropWhile isWordChar
  if word = ['t', 'r', 'u', 'e'] then some (.boolean true, rest)
  else if word = ['f', 'a', 'l', 's', 'e'] then some (.boolean false, rest)
  else match integer? word with
    | some n => some (.integer n, rest)
    | none =>
      if isFloat word then some (.float, rest)
      else if isDate word then
        match rest with
        | ' ' :: more =>
          if isTime true (more.takeWhile isWordChar) then
            some (.dateTime, more.dropWhile isWordChar)
          else some (.dateTime, rest)
        | _ => some (.dateTime, rest)
      else if isDateTime word then some (.dateTime, rest)
      else none

mutual

/-- A value, inside at most `depth` more brackets. -/
def value? : Nat → Nat → List Char → Option (Value × List Char)
  | 0, _, _ => none
  | fuel + 1, depth, cs =>
    match cs with
    | '"' :: _ | '\'' :: _ => do
      let (s, rest) ← quotedString? true cs
      some (.text s, rest)
    | '[' :: rest =>
      match depth with
      | 0 => none
      | depth + 1 => do
        let (items, rest) ← items? fuel depth rest
        some (.array items, rest)
    | '\x7b' :: rest =>
      match depth with
      | 0 => none
      | depth + 1 =>
        match dropBlanks rest with
        | '\x7d' :: rest => some (.table .braced [], rest)
        | _ => do
          let (entries, rest) ← pairs? fuel depth [] rest
          some (.table .braced entries, rest)
    | _ => word? cs

/-- The items of an array up to its closing bracket; a comma may stand behind the last. -/
def items? : Nat → Nat → List Char → Option (List Value × List Char)
  | 0, _, _ => none
  | fuel + 1, depth, cs => do
    match ← dropLayout? cs.length cs with
    | ']' :: rest => some ([], rest)
    | cs =>
      let (v, rest) ← value? fuel depth cs
      match ← dropLayout? rest.length rest with
      | ']' :: rest => some ([v], rest)
      | ',' :: rest =>
        let (vs, rest) ← items? fuel depth rest
        some (v :: vs, rest)
      | _ => none

/-- The pairs of a table in braces, added to those before, up to the closing brace. -/
def pairs? : Nat → Nat → Entries → List Char → Option (Entries × List Char)
  | 0, _, _, _ => none
  | fuel + 1, depth, entries, cs => do
    let (path, cs) ← key? (depthLimit - 1) cs
    match cs with
    | '=' :: cs =>
      let (v, rest) ← value? fuel depth (dropBlanks cs)
      let key ← path.getLast?
      let entries ← entries.insert .braced path.dropLast key v
      match dropBlanks rest with
      | '\x7d' :: rest => some (entries, rest)
      | ',' :: rest => pairs? fuel depth entries rest
      | _ => none
    | _ => none

end

/-- The end of a line: blanks, perhaps a comment, and a line end or the end of the text. -/
def endOfLine? (cs : List Char) : Option (List Char) := do
  let rest ← match dropBlanks cs with
    | '#' :: rest => dropComment? rest
    | rest => some rest
  match rest with
  | [] => some []
  | '\n' :: rest | '\r' :: '\n' :: rest => some rest
  | _ => none

structure Reading where
  entries : Entries := []
  header : List String := []

/-- Reads one line. -/
def line? (r : Reading) (cs : List Char) : Option (Reading × List Char) :=
  match dropBlanks cs with
  | [] => some (r, [])
  | '#' :: _ | '\n' :: _ | '\r' :: _ => (r, ·) <$> endOfLine? cs
  | '[' :: '[' :: rest => do
    let (path, rest) ← key? (depthLimit - 1) rest
    let key ← path.getLast?
    match rest with
    | ']' :: ']' :: rest =>
      let entries ← r.entries.openNextTable path.dropLast key
      (⟨entries, path⟩, ·) <$> endOfLine? rest
    | _ => none
  | '[' :: rest => do
    let (path, rest) ← key? (depthLimit - 1) rest
    let key ← path.getLast?
    match rest with
    | ']' :: rest =>
      let entries ← r.entries.openTable path.dropLast key
      (⟨entries, path⟩, ·) <$> endOfLine? rest
    | _ => none
  | cs => do
    let (path, rest) ← key? (depthLimit - 1) cs
    let key ← path.getLast?
    match rest with
    | '=' :: rest =>
      let (v, rest) ← value? (rest.length + 1) (depthLimit - 1) (dropBlanks rest)
      let entries ← r.entries.insertUnder r.header path.dropLast key v
      ({ r with entries }, ·) <$> endOfLine? rest
    | _ => none

/-- Reads lines to the end of the text; each takes at least one character. -/
def lines? : Nat → Reading → List Char → Option Reading
  | _, r, [] => some r
  | 0, _, _ :: _ => none
  | fuel + 1, r, cs => do
    let (r, rest) ← line? r cs
    lines? fuel r rest

/-- The table of a document. A byte order mark may stand in front. -/
def document? (text : String) : Option Entries := do
  let cs := match text.toList with
    | '\uFEFF' :: cs => cs
    | cs => cs
  let r ← lines? cs.length {} cs
  some r.entries

end OpFlow.Toml
