import Listing.Text.Bytes

/-!
# Lexemes of a statement

A statement is cut into lexemes without understanding it: words, quoted runs, comments, parentheses
and single other bytes. That is enough to tell code from quoted text and comments. Every text can be
cut, also one with an unclosed quote or comment, which then reaches to the end. The lexemes in a row
are the text again (`lexemes_flatten`), and none of them is empty.

Only ASCII bytes have a meaning here. The blanks are space, tab, newline, form feed and carriage
return; every byte of a character outside ASCII belongs to a word.
-/

namespace Listing

open Text

inductive Lexeme.Kind where
  /-- Letters, digits, `_`, `$` and characters outside ASCII. -/
  | word
  /-- Between two quotes of the same kind; a doubled quote inside stands for one. -/
  | quoted
  /-- From `--` to before the end of the line, or from `/*` to the next `*/`. -/
  | comment
  | opening
  | closing
  | semicolon
  | blank
  | symbol
deriving DecidableEq, Repr

structure Lexeme where
  kind : Lexeme.Kind
  text : List UInt8
deriving DecidableEq, Repr

namespace Lexeme

def isQuote (b : UInt8) : Bool :=
  b == Ascii.singleQuote || b == Ascii.doubleQuote || b == Ascii.backquote

def isWordByte (b : UInt8) : Bool :=
  Ascii.isUpper b || Ascii.isLower b || Ascii.isDigit b || Ascii.isBeyond b ||
    b == Ascii.underscore || b == Ascii.dollar

def isBlankByte (b : UInt8) : Bool :=
  b == Ascii.space || b == Ascii.tab || b == Ascii.newline || b == Ascii.formFeed ||
    b == Ascii.carriageReturn

/-! ## Runs -/

/-- Cuts behind the closing quote, given what follows the opening one. -/
def splitQuoted (q : UInt8) : List UInt8 → List UInt8 × List UInt8
  | [] => ([], [])
  | [b] => ([b], [])
  | b :: c :: r =>
    if b = q then
      if c = q then
        let (inside, rest) := splitQuoted q r
        (b :: c :: inside, rest)
      else ([b], c :: r)
    else
      let (inside, rest) := splitQuoted q (c :: r)
      (b :: inside, rest)

/-- Cuts behind the end of a block comment, given what follows its opening. -/
def splitBlock : List UInt8 → List UInt8 × List UInt8
  | [] => ([], [])
  | [b] => ([b], [])
  | b :: c :: r =>
    if b = Ascii.asterisk ∧ c = Ascii.slash then ([b, c], r)
    else
      let (inside, rest) := splitBlock (c :: r)
      (b :: inside, rest)

theorem splitQuoted_append (q : UInt8) (bs : List UInt8) :
    (splitQuoted q bs).1 ++ (splitQuoted q bs).2 = bs := by
  fun_induction splitQuoted q bs <;> simp_all

theorem splitBlock_append (bs : List UInt8) : (splitBlock bs).1 ++ (splitBlock bs).2 = bs := by
  fun_induction splitBlock bs <;> simp_all

/-! ## The first lexeme -/

/-- The lexeme at the start of a text whose first byte is `b`, and the text behind it. -/
def first (b : UInt8) (r : List UInt8) : Lexeme × List UInt8 :=
  if isQuote b then
    let (inside, rest) := splitQuoted b r
    (⟨.quoted, b :: inside⟩, rest)
  else if b = Ascii.hyphen ∧ r.head? = some Ascii.hyphen then
    (⟨.comment, b :: r.takeWhile (· != Ascii.newline)⟩, r.dropWhile (· != Ascii.newline))
  else if b = Ascii.slash ∧ r.head? = some Ascii.asterisk then
    let (inside, rest) := splitBlock (r.drop 1)
    (⟨.comment, b :: r.take 1 ++ inside⟩, rest)
  else if isWordByte b then
    (⟨.word, b :: r.takeWhile isWordByte⟩, r.dropWhile isWordByte)
  else if b = Ascii.openParen then (⟨.opening, [b]⟩, r)
  else if b = Ascii.closeParen then (⟨.closing, [b]⟩, r)
  else if b = Ascii.semicolon then (⟨.semicolon, [b]⟩, r)
  else if isBlankByte b then (⟨.blank, [b]⟩, r)
  else (⟨.symbol, [b]⟩, r)

theorem first_append (b : UInt8) (r : List UInt8) :
    (first b r).1.text ++ (first b r).2 = b :: r := by
  unfold first
  split
  · simpa using splitQuoted_append b r
  split
  · simp [List.takeWhile_append_dropWhile]
  split
  · simp only [List.cons_append, List.append_assoc, splitBlock_append, List.take_append_drop]
  split
  · simp [List.takeWhile_append_dropWhile]
  split
  · rfl
  split
  · rfl
  split
  · rfl
  split <;> rfl

theorem first_text_ne_nil (b : UInt8) (r : List UInt8) : (first b r).1.text ≠ [] := by
  unfold first
  repeat' split
  all_goals simp

theorem length_first_rest (b : UInt8) (r : List UInt8) : (first b r).2.length ≤ r.length := by
  have happ := congrArg List.length (first_append b r)
  have hpos := List.length_pos_iff.2 (first_text_ne_nil b r)
  simp only [List.length_append, List.length_cons] at happ
  omega

end Lexeme

/-- The lexemes of a text. -/
def lexemes : List UInt8 → List Lexeme
  | [] => []
  | b :: r => (Lexeme.first b r).1 :: lexemes (Lexeme.first b r).2
termination_by bs => bs.length
decreasing_by
  have := Lexeme.length_first_rest b r
  simp only [List.length_cons]
  omega

theorem lexemes_nil : lexemes [] = [] := by rw [lexemes]

theorem lexemes_cons (b : UInt8) (r : List UInt8) :
    lexemes (b :: r) = (Lexeme.first b r).1 :: lexemes (Lexeme.first b r).2 := by rw [lexemes]

theorem lexemes_flatten (bs : List UInt8) : (lexemes bs).flatMap (·.text) = bs := by
  fun_induction lexemes bs with
  | case1 => rfl
  | case2 b r ih => rw [List.flatMap_cons, ih, Lexeme.first_append]

end Listing
