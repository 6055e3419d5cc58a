import Listing.Decimal.Written
import Listing.Text.Blank
import Listing.Text.Numeral

/-!
# SQL values

The values that are bound to placeholders and that rows hold. A value is read in two ways: as the
text a pattern searches for (`searchText`) and as a number of rows (`asCount`).
-/

namespace Listing

/-- A value of a parameter or a column. An array holds the bounds of a range condition. -/
inductive Value where
  | null
  | bool (b : Bool)
  | int (n : Int)
  | float (x : Binary64)
  | text (s : String)
  | array (items : List Value)
deriving Inhabited

namespace Value

/-- The text that a pattern condition with this value searches for. Nothing and lists search for the
empty text, which every text contains. -/
def searchText : Value → String
  | text s => s
  | int n => toString n
  | float x => x.plainText
  | bool b => toString b
  | null | array _ => ""

/-- The most rows a count can tell, 2^64 - 1. -/
def maxCount : Nat := UInt64.size - 1

/-- The value as a number of rows. Databases return counts as integers, floating-point numbers or
numerals; a negative number and anything else counts as no rows. -/
def asCount : Value → Nat
  | int n => n.toNat
  | float x => if x.isFinite && !x.isNegative then min x.truncate maxCount else 0
  | text s => (Text.unsigned? (Text.trim s)).getD 0
  | _ => 0

end Value

end Listing
