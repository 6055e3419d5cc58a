import Listing.Text.Bytes

/-!
# Blank characters

A character is blank when it has the Unicode property White_Space. Search terms, page numbers and
counts are trimmed of blanks in this sense, and so is the start of a predicate in a base statement;
there the blanks are counted in bytes (`blankRun`). The statement scanner has a narrower notion of
its own, see `Listing.Statement.Lexeme`.
-/

namespace Listing.Text

/-- The 25 characters with the property White_Space. -/
def blanks : List Char :=
  ['\t', '\n', '\x0b', '\x0c', '\r', ' ', '\u0085', '\u00a0', '\u1680', '\u2000', '\u2001',
    '\u2002', '\u2003', '\u2004', '\u2005', '\u2006', '\u2007', '\u2008', '\u2009', '\u200a',
    '\u2028', '\u2029', '\u202f', '\u205f', '\u3000']

def isBlank (c : Char) : Bool := blanks.contains c

/-- A text without the blanks at its two ends. -/
def trim (s : String) : String :=
  String.ofList ((s.toList.dropWhile isBlank).reverse.dropWhile isBlank).reverse

/-- The number of bytes of the blank character that starts a byte string, 0 if none does. -/
def blankWidth (bs : List UInt8) : Nat :=
  match blanks.find? fun c => (String.utf8EncodeChar c).isPrefixOf bs with
  | some c => c.utf8Size
  | none => 0

/-- The number of bytes of the blank characters that start a byte string. -/
def blankRun : List UInt8 → Nat
  | [] => 0
  | b :: r =>
    match blankWidth (b :: r) with
    | 0 => 0
    | n + 1 => n + 1 + blankRun (r.drop n)
termination_by bs => bs.length
decreasing_by simp only [List.length_drop, List.length_cons]; omega

end Listing.Text
