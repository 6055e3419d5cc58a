import Listing.Toml.Quoted

/-!
# TOML documents

A document is a list of lines: a key with a value, a header that opens a table, or nothing but a
comment. A value in brackets or braces may go over several lines. `Document.read?` reads a document
into its table and refuses what is no TOML; why it does is not told.

Each reader takes the characters ahead and returns what it has read and the characters behind.
Readers that call each other are bounded by a number of steps, for which twice the number of
characters is enough, since of two steps at least one takes a character.
-/

namespace Listing.Toml

/-! ## Blanks and comments -/

/-- Leaves out spaces and tabs. -/
def dropBlanks (cs : List Char) : List Char := cs.dropWhile fun c => c == ' ' || c == '\t'

/-- Leaves out a comment, if there is one here; it ends at the first control character. -/
def dropComment (cs : List Char) : List Char :=
  match cs with
  | '#' :: rest => rest.dropWhile Quoted.isPrintable
  | _ => cs

/-- Ends a line: blanks, perhaps a comment, then a line break or the end of the document. -/
def endLine? (cs : List Char) : Option (List Char) :=
  match dropComment (dropBlanks cs) with
  | [] => some []
  | '\n' :: rest => some rest
  | '\r' :: '\n' :: rest => some rest
  | _ => none

/-- Leaves out blanks, comments and line breaks inside brackets. -/
def dropSpace? (steps : Nat) (cs : List Char) : Option (List Char) :=
  match steps, dropBlanks cs with
  | steps + 1, '\n' :: rest => dropSpace? steps rest
  | steps + 1, '\r' :: '\n' :: rest => dropSpace? steps rest
  | steps + 1, '#' :: rest => (endLine? ('#' :: rest)).bind (dropSpace? steps)
  | _, rest => some rest

/-! ## Keys -/

def isBareKeyChar (c : Char) : Bool := c.isAlphanum || c == '_' || c == '-'

/-- Reads one part of a key, bare or quoted. -/
def simpleKey? (cs : List Char) : Option (String × List Char) :=
  match cs.takeWhile isBareKeyChar with
  | [] => Quoted.line cs
  | name => some (String.ofList name, cs.dropWhile isBareKeyChar)

/-- The most parts of a key. -/
def maxKeyParts : Nat := 80

/-- Reads a key of at most `parts` parts between points, and the blanks behind it. -/
def keyUpTo? (parts : Nat) (cs : List Char) : Option (List String × List Char) :=
  match parts with
  | 0 => none
  | parts + 1 => do
    let (name, rest) ← simpleKey? (dropBlanks cs)
    match dropBlanks rest with
    | '.' :: rest => do
      let (names, rest) ← keyUpTo? parts rest
      some (name :: names, rest)
    | rest => some ([name], rest)

/-- Reads a key and the blanks behind it. -/
def key? (cs : List Char) : Option (List String × List Char) := keyUpTo? maxKeyParts cs

/-! ## Values -/

/-- The most brackets and braces that may be open at a time. -/
def maxNesting : Nat := 80

mutual

/-- Reads a value, with `depth` more brackets and braces in it at most. -/
def value? (steps depth : Nat) (cs : List Char) : Option (Value × List Char) :=
  match steps with
  | 0 => none
  | steps + 1 =>
    match cs, depth with
    | '"' :: _, _ | '\'' :: _, _ => (Quoted.any cs).map fun (s, rest) => (.string s, rest)
    | '[' :: rest, depth + 1 =>
      (items? steps depth rest).map fun (vs, rest) => (.array false vs, rest)
    | '\x7b' :: rest, depth + 1 =>
      (members? steps depth [] rest).map fun (es, rest) => (.table .inline es, rest)
    | _, _ =>
      let (run, rest) := Scalar.split cs
      (Scalar.read? run).map fun v => (v, rest)

/-- Reads the items of an array up to its closing bracket; a comma may follow the last one. -/
def items? (steps depth : Nat) (cs : List Char) : Option (List Value × List Char) :=
  match steps with
  | 0 => none
  | steps + 1 => do
    match ← dropSpace? cs.length cs with
    | ']' :: rest => some ([], rest)
    | cs => do
      let (v, rest) ← value? steps depth cs
      match ← dropSpace? rest.length rest with
      | ',' :: rest => do
        let (vs, rest) ← items? steps depth rest
        some (v :: vs, rest)
      | ']' :: rest => some ([v], rest)
      | _ => none

/-- Reads the entries of an inline table up to its closing brace, adding them to those read before.
Around keys, values and the signs between them there may be line breaks and comments; inside a key
there may not. -/
def members? (steps depth : Nat) (es : Entries) (cs : List Char) : Option (Entries × List Char) :=
  match steps with
  | 0 => none
  | steps + 1 => do
    match ← dropSpace? cs.length cs with
    | '\x7d' :: rest => some (es, rest)
    | cs => do
      let (path, rest) ← key? cs
      match ← dropSpace? rest.length rest with
      | '=' :: rest => do
        let (v, rest) ← value? steps depth (← dropSpace? rest.length rest)
        let es ← Entries.assign v path es
        match ← dropSpace? rest.length rest with
        | ',' :: rest => members? steps depth es rest
        | '\x7d' :: rest => some (es, rest)
        | _ => none
      | _ => none

end

/-! ## Lines -/

/-- What a line of a document says. -/
inductive Line where
  | nothing
  | entry (path : List String) (v : Value)
  | header (path : List String)
  | arrayHeader (path : List String)

namespace Line

/-- Reads the key of a header and its closing brackets. -/
def headerKey? (closing : List Char) (cs : List Char) : Option (List String × List Char) := do
  let (path, rest) ← key? cs
  if closing.isPrefixOf rest then some (path, rest.drop closing.length) else none

/-- Reads a line without its end. -/
def read? (cs : List Char) : Option (Line × List Char) :=
  match dropBlanks cs with
  | [] => some (nothing, [])
  | '[' :: '[' :: rest =>
    (headerKey? [']', ']'] rest).map fun (path, rest) => (arrayHeader path, rest)
  | '[' :: rest => (headerKey? [']'] rest).map fun (path, rest) => (header path, rest)
  | c :: rest =>
    if c = '#' ∨ c = '\n' ∨ c = '\r' then some (nothing, c :: rest)
    else do
      let (path, rest) ← key? (c :: rest)
      match rest with
      | '=' :: rest => do
        let (v, rest) ← value? (2 * rest.length + 1) maxNesting (dropBlanks rest)
        some (entry path v, rest)
      | _ => none

end Line

/-- A document as far as it has been read: its table, and the path of the last header. -/
structure Document where
  root : Entries := []
  path : List String := []

namespace Document

/-- Takes up a line. -/
def add (d : Document) : Line → Option Document
  | .nothing => some d
  | .entry path v => do
    let root ← Entries.modify (Entries.assign v path) d.path d.root
    some { d with root }
  | .header path => do
    let key ← path.getLast?
    let root ← Entries.openTable path.dropLast key d.root
    some ⟨root, path⟩
  | .arrayHeader path => do
    let key ← path.getLast?
    let root ← Entries.appendTable path.dropLast key d.root
    some ⟨root, path⟩

/-- Reads the lines of a document. -/
def readLines (steps : Nat) (d : Document) (cs : List Char) : Option Document :=
  match steps, cs with
  | _, [] => some d
  | 0, _ => none
  | steps + 1, cs => do
    let (line, rest) ← Line.read? cs
    let d ← d.add line
    let rest ← endLine? rest
    readLines steps d rest

/-- Reads a document into its table. A byte-order mark in front is left out. -/
def read? (text : String) : Option Entries :=
  let cs := match text.toList with
    | '\ufeff' :: cs => cs
    | cs => cs
  (readLines cs.length {} cs).map (·.root)

end Document

end Listing.Toml
