/-!
# Decimal numerals

A numeral is an optional sign and at least one ASCII digit. `signed?` reads one into the range of a
64-bit signed integer and accepts both signs, `unsigned?` reads one into the range of a 64-bit
unsigned integer and accepts `+` only. A numeral out of range is read as none at all.
-/

namespace Listing.Text

/-- The number that a non-empty run of ASCII digits writes. -/
def natural? (cs : List Char) : Option Nat :=
  if cs.isEmpty || !cs.all Char.isDigit then none else some (Nat.ofDigitChars 10 cs 0)

/-- The integer that an optional sign and digits write, of any size. -/
def integer? : List Char → Option Int
  | '+' :: ds => (natural? ds).map Int.ofNat
  | '-' :: ds => (natural? ds).map fun n => -Int.ofNat n
  | ds => (natural? ds).map Int.ofNat

/-- A numeral from -2^63 to 2^63 - 1. -/
def signed? (s : String) : Option Int :=
  (integer? s.toList).filter fun n => -0x8000000000000000 ≤ n ∧ n < 0x8000000000000000

/-- A numeral from 0 to 2^64 - 1, with no sign or a plus. -/
def unsigned? (s : String) : Option Nat :=
  let digits := match s.toList with
    | '+' :: ds => ds
    | ds => ds
  (natural? digits).filter (· < UInt64.size)

end Listing.Text
