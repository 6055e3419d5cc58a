/-!
# 64-bit binary floating-point numbers

A number is given by its 64 bits: a sign, eleven bits of exponent and 52 bits of fraction. A finite
one is `±significand · 2^scale` with natural `significand`, and everything about it is computed from
these two with exact integers, so that statements about it need no rounding.
-/

namespace Listing

/-- A binary floating-point number as its 64 bits. -/
structure Binary64 where
  bits : UInt64
deriving DecidableEq

namespace Binary64

def isNegative (x : Binary64) : Bool := 0x8000000000000000 ≤ x.bits.toNat

/-- The eleven bits of the exponent. -/
def exponentField (x : Binary64) : Nat := x.bits.toNat / 0x10000000000000 % 0x800

/-- The 52 bits of the fraction. -/
def fractionField (x : Binary64) : Nat := x.bits.toNat % 0x10000000000000

def isFinite (x : Binary64) : Bool := x.exponentField != 0x7ff

def isNaN (x : Binary64) : Bool := !x.isFinite && x.fractionField != 0

/-- The fraction, with the leading bit that a normal number leaves out. -/
def significand (x : Binary64) : Nat :=
  if x.exponentField = 0 then x.fractionField else 0x10000000000000 + x.fractionField

/-- The power of two that the significand is multiplied by. -/
def scale (x : Binary64) : Int := max x.exponentField 1 - 1075

/-- Whether the next number towards zero is only half as far away as the next one outwards. This is
so at the powers of two, where the exponent changes, except at the smallest normal number. -/
def narrowBelow (x : Binary64) : Bool := x.fractionField == 0 && 1 < x.exponentField

/-- The absolute value as a fraction of natural numbers. -/
def fraction (x : Binary64) : Nat × Nat :=
  (x.significand * Nat.pow 2 x.scale.toNat, Nat.pow 2 (-x.scale).toNat)

/-- The absolute value of a finite number without its fractional part. -/
def truncate (x : Binary64) : Nat := x.fraction.1 / x.fraction.2

end Binary64

end Listing
