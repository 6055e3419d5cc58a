import Listing.Statement.Lexeme

/-!
# Outlines of a statement

The outline of a statement holds what a composer has to know of it: its words at the top level, and
where its code ends. A word at the top level stands outside parentheses, quotes and comments, and
not right behind a point, so that the name of a column is never taken for a keyword. Blanks,
comments and semicolons outside parentheses are not code; what is inserted at the end of the code in
front of a word stays clear of them.
-/

namespace Listing

open Text

/-- A word at the top level of a statement. Positions count bytes. -/
structure Word where
  start : Nat
  stop : Nat
  /-- The end of the last code in front of the word. -/
  before : Nat
  text : List UInt8
deriving DecidableEq, Repr

namespace Word

/-- Whether the word spells a name, in any case of its letters. -/
def spells (w : Word) (name : String) : Bool := sameIgnoringCase w.text (bytes name)

end Word

/-- Where the scan of a statement has got to. -/
structure Scan where
  position : Nat := 0
  /-- How many parentheses are open. -/
  depth : Nat := 0
  codeEnd : Nat := 0
  /-- Whether the last byte is a point. -/
  afterPoint : Bool := false
deriving DecidableEq, Repr

namespace Scan

/-- Whether a lexeme is code. A semicolon ends the statement, unless it stands in parentheses. -/
def isCode (s : Scan) (x : Lexeme) : Bool :=
  match x.kind with
  | .blank | .comment => false
  | .semicolon => 0 < s.depth
  | _ => true

/-- Passes a lexeme. A closing parenthesis without an opening one leaves the depth at 0. -/
def pass (s : Scan) (x : Lexeme) : Scan where
  position := s.position + x.text.length
  depth :=
    match x.kind with
    | .opening => s.depth + 1
    | .closing => s.depth - 1
    | _ => s.depth
  codeEnd := if s.isCode x then s.position + x.text.length else s.codeEnd
  afterPoint := x.text.getLast? == some Ascii.point

/-- The word that a lexeme is at the top level, if it is one. -/
def word? (s : Scan) (x : Lexeme) : Option Word :=
  if x.kind = .word ∧ s.depth = 0 ∧ s.afterPoint = false then
    some ⟨s.position, s.position + x.text.length, s.codeEnd, x.text⟩
  else none

/-- The words at the top level among lexemes. -/
def words (s : Scan) : List Lexeme → List Word
  | [] => []
  | x :: xs => (s.word? x).toList ++ (s.pass x).words xs

end Scan

/-- The words at the top level of a statement and the end of its code. -/
structure Outline where
  words : List Word
  codeEnd : Nat
deriving DecidableEq, Repr

/-- The outline of a text. -/
def Outline.of (text : List UInt8) : Outline where
  words := Scan.words {} (lexemes text)
  codeEnd := ((lexemes text).foldl Scan.pass {}).codeEnd

/-! ## Keywords -/

/-- Keywords that start a clause or end one, of one word or two. -/
inductive Keyword where
  | select
  | «from»
  | «where»
  | groupBy
  | having
  | window
  | orderBy
  | limit
  | offset
  | fetch
deriving DecidableEq, Repr

namespace Keyword

/-- The words that a keyword consists of. -/
def parts : Keyword → List String
  | select => ["select"]
  | «from» => ["from"]
  | «where» => ["where"]
  | groupBy => ["group", "by"]
  | having => ["having"]
  | window => ["window"]
  | orderBy => ["order", "by"]
  | limit => ["limit"]
  | offset => ["offset"]
  | fetch => ["fetch"]

/-- The keywords that a WHERE predicate ends at. -/
def afterWhere : List Keyword := [groupBy, having, window, orderBy, limit, offset, fetch]

/-- The keywords that limit the rows of a result. -/
def paging : List Keyword := [limit, offset, fetch]

end Keyword

/-- Where a keyword stands. -/
structure Place where
  start : Nat
  stop : Nat
  /-- The end of the last code in front of it. -/
  before : Nat
deriving DecidableEq, Repr

namespace Outline

/-- The place of a keyword if the words start with it, neighbouring words being its parts. -/
def placeAt? (k : Keyword) : List Word → Option Place
  | [] => none
  | w :: ws =>
    match k.parts with
    | [only] => if w.spells only then some ⟨w.start, w.stop, w.before⟩ else none
    | [former, latter] =>
      match ws with
      | w' :: _ =>
        if w.spells former ∧ w'.spells latter then some ⟨w.start, w'.stop, w.before⟩ else none
      | [] => none
    | _ => none

/-- The places where one of the keywords starts at or behind a position, in order. -/
def places (ks : List Keyword) (position : Nat) : List Word → List Place
  | [] => []
  | w :: ws =>
    (if position ≤ w.start then ks.filterMap (placeAt? · (w :: ws)) else []) ++
      places ks position ws

/-- The first place of a keyword at or behind a position. -/
def first? (o : Outline) (k : Keyword) (position : Nat) : Option Place :=
  (places [k] position o.words).head?

/-- The last place of a keyword at or behind a position. -/
def last? (o : Outline) (k : Keyword) (position : Nat) : Option Place :=
  (places [k] position o.words).getLast?

/-- The first place of any of the keywords at or behind a position. -/
def earliest? (o : Outline) (ks : List Keyword) (position : Nat) : Option Place :=
  (places ks position o.words).head?

/-- The words that lie between two positions. -/
def wordsBetween (o : Outline) (position stop : Nat) : List Word :=
  o.words.filter fun w => position ≤ w.start ∧ w.stop ≤ stop

end Outline

end Listing
