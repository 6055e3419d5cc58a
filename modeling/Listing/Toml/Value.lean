/-!
# TOML values and tables

A TOML document is a table, and it is built line by line. Every table remembers where it comes from,
since that decides who may still add to it: a header may open a table that so far exists only
because deeper headers pass through it, a dotted key may add only to tables that dotted keys have
made, and an inline table is complete as it is written. Adding a key that is there already always
fails.
-/

namespace Listing.Toml

/-- How a table came to be. -/
inductive Origin where
  /-- The header of a table deeper down passes through it. -/
  | implied
  /-- A dotted key passes through it. -/
  | dotted
  /-- It has a header of its own. -/
  | header
  /-- It is written in braces. -/
  | inline
deriving DecidableEq, Repr

inductive Value where
  | string (s : String)
  /-- An integer; what looks like one may have no number. -/
  | integer (n : Option Int)
  | boolean (b : Bool)
  /-- A floating-point number as it is written. -/
  | float (text : String)
  /-- A date, a time or both, as written. -/
  | dateTime (text : String)
  /-- An array; one that is `open` is made by headers in double brackets, which add to it. -/
  | array (isOpen : Bool) (items : List Value)
  | table (origin : Origin) (entries : List (String × Value))

/-- The entries of a table in the order of the document. -/
abbrev Entries := List (String × Value)

namespace Entries

/-- Replaces the value of a key that is there. -/
def replace (key : String) (v : Value) (es : Entries) : Entries :=
  es.map fun e => if e.1 = key then (key, v) else e

/-- Adds a key that must not be there yet. -/
def add (key : String) (v : Value) (es : Entries) : Option Entries :=
  match es.lookup key with
  | some _ => none
  | none => some (es ++ [(key, v)])

/-- Adds a value under a dotted key. The tables on the way are those of dotted keys, or new; the way
may also lead through a table that headers merely pass through, but must not end there. -/
def assign (v : Value) : List String → Entries → Option Entries
  | [], _ => none
  | [key], es => add key v es
  | key :: next :: path, es =>
    match es.lookup key with
    | none => do
      let inner ← assign v (next :: path) []
      add key (.table .dotted inner) es
    | some (.table origin inner) =>
      if origin = .dotted ∨ origin = .implied ∧ path ≠ [] then do
        let inner ← assign v (next :: path) inner
        some (replace key (.table origin inner) es)
      else none
    | some _ => none

/-- Changes the table at the end of a header's path. The way leads through tables of any kind but
inline, and through the last table of an open array; tables that are missing are made. -/
def modify (change : Entries → Option Entries) : List String → Entries → Option Entries
  | [], es => change es
  | key :: path, es =>
    match es.lookup key with
    | none => do
      let inner ← modify change path []
      add key (.table .implied inner) es
    | some (.table origin inner) =>
      if origin = .inline then none
      else do
        let inner ← modify change path inner
        some (replace key (.table origin inner) es)
    | some (.array true items) =>
      match items.getLast? with
      | some (.table origin inner) => do
        let inner ← modify change path inner
        some (replace key (.array true (items.dropLast ++ [.table origin inner])) es)
      | _ => none
    | some _ => none

/-- Opens the table of a header; it is new, or only implied so far. -/
def openTable (path : List String) (key : String) : Entries → Option Entries :=
  modify (fun es =>
    match es.lookup key with
    | none => add key (.table .header []) es
    | some (.table .implied inner) => some (replace key (.table .header inner) es)
    | some _ => none) path

/-- Opens a new table at the end of the open array of a header, which may be new itself. -/
def appendTable (path : List String) (key : String) : Entries → Option Entries :=
  modify (fun es =>
    match es.lookup key with
    | none => add key (.array true [.table .header []]) es
    | some (.array true items) => some (replace key (.array true (items ++ [.table .header []])) es)
    | some _ => none) path

end Entries

end Listing.Toml
