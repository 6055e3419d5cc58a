/-!
# Safe SQL identifiers

The only texts that a caller may have written into a statement. A plain identifier is an ASCII
letter or underscore followed by ASCII letters, digits and underscores, 63 characters at most; a
qualified one is one to three plain identifiers joined by points. Such a text holds no quote, space,
operator or comment mark, so it reads as a column name wherever it stands.
-/

namespace Listing.Identifier

/-- The most characters of a plain identifier. -/
def maxLength : Nat := 63

/-- The most parts of a qualified identifier: schema, table and column. -/
def maxParts : Nat := 3

def isStart (c : Char) : Bool := c.isAlpha || c == '_'

def isRest (c : Char) : Bool := c.isAlphanum || c == '_'

/-- Whether the characters spell a plain identifier. They are all ASCII then, so that their number
is also the number of bytes. -/
def isPart : List Char → Bool
  | [] => false
  | c :: cs => cs.length < maxLength && isStart c && cs.all isRest

/-- Whether a text is a plain identifier. -/
def isPlain (s : String) : Bool := isPart s.toList

/-- Whether a text is one to three plain identifiers joined by points. -/
def isQualified (s : String) : Bool :=
  let parts := s.toList.splitOn '.'
  parts.length ≤ maxParts && parts.all isPart

end Listing.Identifier
