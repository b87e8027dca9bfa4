/-!
Tables of a TOML document while it is read. Each table remembers how it came to be, because that
decides who may still add to it: a header may take over a table that only a longer header implied, a
dotted key only tables that dotted keys made.
-/
namespace OpFlow.Toml

/-- How a table came to be. -/
inductive TableKind
  /-- By a header of its own; the document itself counts as such a table. -/
  | headed
  /-- By a longer header. -/
  | implied
  /-- By a dotted key. -/
  | dotted
  /-- By braces, which close it. -/
  | braced
  deriving DecidableEq, Repr

inductive Value
  | text (value : String)
  | integer (value : Int)
  | boolean (value : Bool)
  | float
  | dateTime
  | array (items : List Value)
  | table (kind : TableKind) (entries : List (String × Value))
  /-- The tables of one repeated header, the latest first. -/
  | tables (latestFirst : List (List (String × Value)))

abbrev Entries := List (String × Value)

namespace Entries

def replace (es : Entries) (key : String) (v : Value) : Entries :=
  es.map fun e => if e.1 = key then (key, v) else e

def mayEnter (viaDotted : Bool) : TableKind → Bool
  | .headed => !viaDotted
  | .implied | .dotted => true
  | .braced => false

/-- Changes the table at the end of a path. Tables missing on the way are made, as parts of a dotted
key or as implied by a header. -/
def updateAt (viaDotted : Bool) (f : TableKind → Entries → Option Entries) :
    List String → TableKind → Entries → Option Entries
  | [], kind, es => f kind es
  | key :: path, _, es =>
    match es.lookup key with
    | none => do
      let kind := if viaDotted then TableKind.dotted else .implied
      let sub ← updateAt viaDotted f path kind []
      some (es ++ [(key, .table kind sub)])
    | some (.table kind sub) =>
      if mayEnter viaDotted kind then do
        let sub ← updateAt viaDotted f path kind sub
        some (replace es key (.table kind sub))
      else none
    | some (.tables (last :: others)) => do
      let last ← updateAt viaDotted f path .headed last
      some (replace es key (.tables (last :: others)))
    | some _ => none

/-- Adds a value under a dotted key. A key of several parts ends in a table of its own making, one
of a single part in any other. -/
def insert (kind : TableKind) (es : Entries) (path : List String) (key : String) (v : Value) :
    Option Entries :=
  updateAt true (fun kind es =>
    if (kind == .dotted) == path.isEmpty ∨ (es.lookup key).isSome then none
    else some (es ++ [(key, v)])) path kind es

/-- Opens the table of a header. -/
def openTable (es : Entries) (path : List String) (key : String) : Option Entries :=
  updateAt false (fun _ es =>
    match es.lookup key with
    | none => some (es ++ [(key, .table .headed [])])
    | some (.table .implied sub) => some (replace es key (.table .headed sub))
    | some _ => none) path .headed es

/-- Opens one more table of a repeated header. -/
def openNextTable (es : Entries) (path : List String) (key : String) : Option Entries :=
  updateAt false (fun _ es =>
    match es.lookup key with
    | none => some (es ++ [(key, .tables [[]])])
    | some (.tables ts) => some (replace es key (.tables ([] :: ts)))
    | some _ => none) path .headed es

def insertUnder (es : Entries) (header : List String) (path : List String) (key : String)
    (v : Value) : Option Entries :=
  updateAt false (fun kind es => insert kind es path key v) header .headed es

end Entries

end OpFlow.Toml
