import Listing.Decimal.Binary64

/-!
# Shortest decimals

The decimal that stands for a binary number is the one with the fewest digits among those that read
back as the same number, and of several the nearest. The real numbers that read back as `x` reach
from halfway to the number below to halfway to the number above, the ends included when the
significand is even. The search tries one digit, two digits and so on: for each number of digits it
takes the two multiples of the power of ten in question next to `x`, since no other multiple can be
in that interval if these are not. All comparisons are of exact integers.
-/

namespace Listing

/-- The number `digits · 10^exponent`. -/
structure Decimal where
  digits : Nat
  exponent : Int
deriving DecidableEq

/-- What becomes of a number exactly in the middle between two candidates. -/
inductive Decimal.Tie where
  | toEven
  | upward

namespace Decimal

/-- Compares `a · 10^i` with `n · 2^j`. -/
def compareBinary (a : Nat) (i : Int) (n : Nat) (j : Int) : Ordering :=
  compare (a * Nat.pow 10 i.toNat * Nat.pow 2 (-j).toNat)
    (n * Nat.pow 2 j.toNat * Nat.pow 10 (-i).toNat)

/-- Whether a decimal is one of those that are read as the finite number `x`. -/
def readsAs (d : Decimal) (x : Binary64) : Bool :=
  let m := 4 * x.significand
  let below := compareBinary d.digits d.exponent (m - if x.narrowBelow then 1 else 2) (x.scale - 2)
  let above := compareBinary d.digits d.exponent (m + 2) (x.scale - 2)
  let endsIncluded := x.significand % 2 == 0
  (below == .gt || (endsIncluded && below == .eq)) &&
    (above == .lt || (endsIncluded && above == .eq))

/-- The number of decimal digits of a positive number. -/
def digitCount (n : Nat) : Nat := (Nat.toDigits 10 n).length

/-- The least `k` with `num / den < 10^k`, for a positive fraction. -/
def magnitude (num den : Nat) : Int :=
  if den ≤ num then digitCount (num / den) else 1 - (digitCount ((den - 1) / num) : Int)

/-- Of two neighbouring candidates `lower` and `lower + 1` the one nearer to `x`. -/
def nearer (tie : Tie) (lower : Nat) (exponent : Int) (x : Binary64) : Nat :=
  match compareBinary (2 * lower + 1) exponent (2 * x.significand) x.scale, tie with
  | .gt, _ => lower
  | .lt, _ => lower + 1
  | .eq, .upward => lower + 1
  | .eq, .toEven => if lower % 2 = 0 then lower else lower + 1

/-- The multiple of `10^exponent` that is read as `x` and is nearest to it, if there is one. -/
def onGrid (tie : Tie) (x : Binary64) (exponent : Int) : Option Decimal :=
  let (num, den) := x.fraction
  let lower := num * Nat.pow 10 (-exponent).toNat / (den * Nat.pow 10 exponent.toNat)
  match readsAs ⟨lower, exponent⟩ x, readsAs ⟨lower + 1, exponent⟩ x with
  | true, true => some ⟨nearer tie lower exponent x, exponent⟩
  | true, false => some ⟨lower, exponent⟩
  | false, true => some ⟨lower + 1, exponent⟩
  | false, false => none

/-- The most digits that a number can need. -/
def maxDigits : Nat := 17

/-- The exact value of `x`, which needs no search. -/
def exact (x : Binary64) : Decimal :=
  ⟨x.significand * Nat.pow 2 x.scale.toNat * Nat.pow 5 (-x.scale).toNat, min x.scale 0⟩

/-- The shortest decimal that is read as `x`, nearest to it; zero for zero. -/
def shortest (tie : Tie) (x : Binary64) : Decimal :=
  if x.significand = 0 then ⟨0, 0⟩
  else
    let (num, den) := x.fraction
    let k := magnitude num den
    ((List.range maxDigits).findSome? fun n => onGrid tie x (k - 1 - Int.ofNat n)).getD (exact x)

end Decimal

end Listing
