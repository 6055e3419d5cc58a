import Listing.Decimal.Shortest

/-!
# Written decimals

A number is written as its shortest decimal, positionally or with an exponent. `Style` records which
of the two is used where and how whole numbers end; `plain` is the style of texts that a pattern
searches for, `scientific` the one of JSON.
-/

namespace Listing.Decimal

/-- The choices of a way to write decimals. The exponent meant is that of the leading digit. -/
structure Style where
  /-- Which of two equally near candidates is taken. -/
  tie : Tie
  /-- Whether a number with this exponent is written positionally. -/
  isPositional : Int → Bool
  /-- Whether a whole number in positional form ends in `.0`. -/
  pointZero : Bool

/-- Always positional, whole numbers without a point, ties upward. -/
def plain : Style := ⟨.upward, fun _ => true, false⟩

/-- Positional from 10^-5 to below 10^16, whole numbers ending in `.0`, ties to even. -/
def scientific : Style := ⟨.toEven, fun e => -5 ≤ e ∧ e < 16, true⟩

/-- Digits without the zeros at their end, of which at least the first stays. -/
def stripZeros : List Char → List Char
  | [] => []
  | d :: ds => d :: (ds.reverse.dropWhile (· == '0')).reverse

/-- Writes `0.d₁d₂… · 10^point`, the digits given, with the point where it belongs. -/
def positional (pointZero : Bool) (digits : List Char) (point : Int) : List Char :=
  let n : Int := digits.length
  if point ≤ 0 then '0' :: '.' :: List.replicate (-point).toNat '0' ++ digits
  else if point < n then digits.take point.toNat ++ '.' :: digits.drop point.toNat
  else digits ++ List.replicate (point - n).toNat '0' ++ if pointZero then ['.', '0'] else []

/-- Writes `d₁.d₂… e±exponent`. -/
def withExponent (digits : List Char) (exponent : Int) : List Char :=
  let fraction := digits.drop 1
  digits.take 1 ++ (if fraction.isEmpty then [] else '.' :: fraction) ++
    'e' :: (if exponent < 0 then '-' else '+') :: Nat.toDigits 10 exponent.natAbs

/-- Writes a decimal without its sign. -/
def write (style : Style) (d : Decimal) : List Char :=
  let all := Nat.toDigits 10 d.digits
  let point := all.length + d.exponent
  let digits := stripZeros all
  if style.isPositional (point - 1) then positional style.pointZero digits point
  else withExponent digits (point - 1)

/-- Writes a finite number as its shortest decimal; the sign of zero is kept. -/
def text (style : Style) (x : Binary64) : String :=
  String.ofList ((if x.isNegative then ['-'] else []) ++ write style (shortest style.tie x))

end Listing.Decimal

namespace Listing.Binary64

/-- The plain text of a number; `NaN`, `inf` and `-inf` for the others. -/
def plainText (x : Binary64) : String :=
  if x.isNaN then "NaN"
  else if !x.isFinite then (if x.isNegative then "-inf" else "inf")
  else Decimal.text Decimal.plain x

end Listing.Binary64
