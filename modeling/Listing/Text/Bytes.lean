/-!
# Texts as UTF-8 bytes

Offsets and lengths in this library count UTF-8 bytes, so a statement is cut and joined as a list of
bytes. `bytes` gives the bytes of a text, `ofBytes?` reads them back and refuses what is not UTF-8
(`ofBytes?_bytes`). All bytes with a meaning to the statement scanner are ASCII and stand here under
their names; a character outside ASCII is encoded in bytes of 128 and above only.
-/

namespace Listing.Text

/-- The UTF-8 bytes of a text. -/
def bytes (s : String) : List UInt8 := s.toByteArray.data.toList

/-- The text that a list of bytes encodes, if it is UTF-8. -/
def ofBytes? (bs : List UInt8) : Option String := String.fromUTF8? ⟨bs.toArray⟩

@[simp] theorem bytes_append (s t : String) : bytes (s ++ t) = bytes s ++ bytes t := by
  simp [bytes, String.toByteArray_append]

@[simp] theorem bytes_empty : bytes "" = [] := rfl

/-- What `bytes` writes, `ofBytes?` reads back. -/
@[simp] theorem ofBytes?_bytes (s : String) : ofBytes? (bytes s) = some s := by
  simp only [ofBytes?, bytes, Array.toArray_toList, String.fromUTF8?, s.isValidUTF8, ↓reduceDIte]
  rfl

/-! ## Named ASCII bytes -/

namespace Ascii

@[match_pattern] abbrev tab : UInt8 := 9
@[match_pattern] abbrev newline : UInt8 := 10
@[match_pattern] abbrev formFeed : UInt8 := 12
@[match_pattern] abbrev carriageReturn : UInt8 := 13
@[match_pattern] abbrev space : UInt8 := 32
@[match_pattern] abbrev doubleQuote : UInt8 := 34
@[match_pattern] abbrev dollar : UInt8 := 36
@[match_pattern] abbrev singleQuote : UInt8 := 39
@[match_pattern] abbrev openParen : UInt8 := 40
@[match_pattern] abbrev closeParen : UInt8 := 41
@[match_pattern] abbrev asterisk : UInt8 := 42
@[match_pattern] abbrev hyphen : UInt8 := 45
@[match_pattern] abbrev point : UInt8 := 46
@[match_pattern] abbrev slash : UInt8 := 47
@[match_pattern] abbrev semicolon : UInt8 := 59
@[match_pattern] abbrev underscore : UInt8 := 95
@[match_pattern] abbrev backquote : UInt8 := 96

/-- The ASCII digits `0` to `9`. -/
def isDigit (b : UInt8) : Bool := 48 ≤ b && b ≤ 57

def isUpper (b : UInt8) : Bool := 65 ≤ b && b ≤ 90

def isLower (b : UInt8) : Bool := 97 ≤ b && b ≤ 122

/-- The bytes of encoded characters outside ASCII. -/
def isBeyond (b : UInt8) : Bool := 128 ≤ b

/-- Upper-case ASCII letters in lower case, every other byte as it is. -/
def toLower (b : UInt8) : UInt8 := if isUpper b then b + 32 else b

end Ascii

/-- Whether two byte strings differ at most in the case of ASCII letters. -/
def sameIgnoringCase (a b : List UInt8) : Bool := a.map Ascii.toLower == b.map Ascii.toLower

end Listing.Text
