import Listing.Toml.Scalar

/-!
# Quoted TOML strings

Basic strings stand in double quotes and know escapes, literal strings stand in single quotes and
know none. Both have a form in three quotes that may hold line breaks, of which one right behind the
opening quotes is left out. No string holds a control character other than the tab, unless it is
escaped. The readers take what follows the opening quotes and return the string and what follows the
closing ones.
-/

namespace Listing.Toml.Quoted

/-- Whether a character may stand for itself in a string or a comment. -/
def isPrintable (c : Char) : Bool := c == '\t' || (32 ≤ c.toNat && c.toNat ≠ 127)

/-- The character that a backslash and one letter stand for. -/
def escaped? (c : Char) : Option Char :=
  match c with
  | '"' => some '"'
  | '\\' => some '\\'
  | 'b' => some '\x08'
  | 't' => some '\t'
  | 'n' => some '\n'
  | 'f' => some '\x0c'
  | 'r' => some '\r'
  | 'e' => some '\x1b'
  | _ => none

/-- How many hexadecimal digits follow a backslash and this letter. -/
def hexDigits? (c : Char) : Option Nat :=
  match c with
  | 'x' => some 2
  | 'u' => some 4
  | 'U' => some 8
  | _ => none

/-- The character that hexadecimal digits number. -/
def numbered? (count : Nat) (digits : List Char) : Option Char :=
  if digits.length = count then
    (Scalar.number? 16 digits).bind fun n => if n.isValidChar then some (Char.ofNat n) else none
  else none

/-- Puts a character in front of the string that is read behind it. -/
def cons (c : Char) (result : Option (List Char × List Char)) : Option (List Char × List Char) :=
  result.map fun (cs, rest) => (c :: cs, rest)

/-- Reads a basic string. -/
def basic : List Char → Option (List Char × List Char)
  | [] => none
  | '"' :: rest => some ([], rest)
  | '\\' :: e :: rest =>
    match escaped? e, hexDigits? e with
    | some c, _ => cons c (basic rest)
    | none, some n =>
      match numbered? n (rest.take n) with
      | some c => cons c (basic (rest.drop n))
      | none => none
    | none, none => none
  | c :: rest => if isPrintable c then cons c (basic rest) else none
termination_by cs => cs.length
decreasing_by all_goals simp only [List.length_cons, List.length_drop]; omega

/-- Reads a literal string. -/
def literal : List Char → Option (List Char × List Char)
  | [] => none
  | '\'' :: rest => some ([], rest)
  | c :: rest => if isPrintable c then cons c (literal rest) else none

/-! ## Strings over many lines -/

/-- What follows three quotes: up to two more of them belong to the string that they close. -/
def closing (quote : Char) (rest : List Char) : List Char × List Char :=
  match rest with
  | c :: d :: rest' =>
    if c = quote then if d = quote then ([c, d], rest') else ([c], d :: rest') else ([], rest)
  | [c] => if c = quote then ([c], []) else ([], rest)
  | [] => ([], [])

/-- Whether a line ends here, after spaces and tabs. -/
def atLineEnd (cs : List Char) : Bool :=
  match cs.dropWhile fun c => c == ' ' || c == '\t' with
  | '\n' :: _ | '\r' :: '\n' :: _ => true
  | _ => false

/-- Leaves out blanks and line breaks, as a backslash at the end of a line asks for. -/
def dropLines : List Char → List Char
  | '\r' :: '\n' :: rest => dropLines rest
  | c :: rest => if c = ' ' ∨ c = '\t' ∨ c = '\n' then dropLines rest else c :: rest
  | [] => []

theorem length_dropLines (cs : List Char) : (dropLines cs).length ≤ cs.length := by
  fun_induction dropLines cs <;> simp_all <;> omega

/-- Leaves out one line break. -/
def dropLineBreak : List Char → List Char
  | '\n' :: rest => rest
  | '\r' :: '\n' :: rest => rest
  | cs => cs

/-- Reads a basic string in three quotes, behind the line break that may follow them. -/
def basicLines : List Char → Option (List Char × List Char)
  | [] => none
  | '"' :: '"' :: '"' :: rest => some (closing '"' rest)
  | '\r' :: '\n' :: rest => cons '\r' (cons '\n' (basicLines rest))
  | '\n' :: rest => cons '\n' (basicLines rest)
  | '\\' :: e :: rest =>
    match escaped? e, hexDigits? e with
    | some c, _ => cons c (basicLines rest)
    | none, some n =>
      match numbered? n (rest.take n) with
      | some c => cons c (basicLines (rest.drop n))
      | none => none
    | none, none => if atLineEnd (e :: rest) then basicLines (dropLines (e :: rest)) else none
  | c :: rest => if isPrintable c then cons c (basicLines rest) else none
termination_by cs => cs.length
decreasing_by
  all_goals
    try have := length_dropLines (e :: rest)
    simp only [List.length_cons, List.length_drop] at *
    omega

/-- Reads a literal string in three quotes, behind the line break that may follow them. -/
def literalLines : List Char → Option (List Char × List Char)
  | [] => none
  | '\'' :: '\'' :: '\'' :: rest => some (closing '\'' rest)
  | '\r' :: '\n' :: rest => cons '\r' (cons '\n' (literalLines rest))
  | '\n' :: rest => cons '\n' (literalLines rest)
  | c :: rest => if isPrintable c then cons c (literalLines rest) else none

/-! ## Any string -/

/-- Reads a string of one line with its quotes. -/
def line : List Char → Option (String × List Char)
  | '"' :: rest => (basic rest).map fun (cs, rest) => (String.ofList cs, rest)
  | '\'' :: rest => (literal rest).map fun (cs, rest) => (String.ofList cs, rest)
  | _ => none

/-- Reads a string with its quotes. -/
def any : List Char → Option (String × List Char)
  | '"' :: '"' :: '"' :: rest =>
    (basicLines (dropLineBreak rest)).map fun (cs, rest) => (String.ofList cs, rest)
  | '\'' :: '\'' :: '\'' :: rest =>
    (literalLines (dropLineBreak rest)).map fun (cs, rest) => (String.ofList cs, rest)
  | cs => line cs

end Listing.Toml.Quoted
