import Listing.Toml.Value

/-!
# Unquoted TOML values

Booleans, numbers and dates are written without quotes. `Scalar.read?` decides which of them a run
of characters is, and goes by how the run starts: what stands behind the first digits and the sign
in front of them tells an integer, a floating-point number and a date apart. Dates and times are
checked to exist.

Underscores group digits. Each has a digit behind it, and in front of it a digit or the sign of the
number. In an integer with grouped digits nothing but this is checked, so that `1_000abc` is an
integer that has no number. So is `0x` with no digits behind it.
-/

namespace Listing.Toml.Scalar

/-! ## Digits -/

/-- The value of a digit in a base up to 16. -/
def digitValue? (base : Nat) (c : Char) : Option Nat :=
  let n :=
    if c.isDigit then c.toNat - '0'.toNat
    else if 'a' ≤ c ∧ c ≤ 'f' then c.toNat - 'a'.toNat + 10
    else if 'A' ≤ c ∧ c ≤ 'F' then c.toNat - 'A'.toNat + 10
    else base
  if n < base then some n else none

def isDigitIn (base : Nat) (c : Char) : Bool := (digitValue? base c).isSome

/-- The number that digits in a base write, at least one of them. -/
def number? (base : Nat) : List Char → Option Nat
  | [] => none
  | cs => (cs.mapM (digitValue? base)).map (·.foldl (fun n d => base * n + d) 0)

/-- Whether every underscore stands between two digits, given whether a digit is in front. -/
def isGrouped (isDigit : Char → Bool) (behindDigit : Bool) : List Char → Bool
  | [] => true
  | c :: cs =>
    if c = '_' then behindDigit && cs.head?.any isDigit && isGrouped isDigit false cs
    else isGrouped isDigit (isDigit c) cs

/-- Digits with underscores among them. -/
def isGroupChar (c : Char) : Bool := c.isDigit || c == '_'

/-! ## Numbers -/

/-- The sign of a number, if it has one, and what follows. -/
def splitSign : List Char → Option Char × List Char
  | '-' :: cs => (some '-', cs)
  | '+' :: cs => (some '+', cs)
  | cs => (none, cs)

/-- The integer that a sign and grouped digits write. -/
def integer (base : Nat) (sign : Option Char) (cs : List Char) : Value :=
  .integer <| (number? base (cs.filter (· != '_'))).map fun n =>
    if sign = some '-' then -Int.ofNat n else Int.ofNat n

/-- An integer behind the mark of its base; it may have no digits. -/
def based? (base : Nat) (cs : List Char) : Option Value :=
  if cs.all (fun c => isDigitIn base c || c == '_') && isGrouped (isDigitIn base) false cs then
    some (integer base none cs)
  else none

/-- Whether the characters are an exponent, its letter included. -/
def isExponent : List Char → Bool
  | c :: cs =>
    let digits := (splitSign cs).2
    (c == 'e' || c == 'E') && digits.any Char.isDigit && digits.all isGroupChar
  | [] => false

/-- Whether the characters are a floating-point number: a whole part, which has no zero in front,
then a fraction, an exponent or both. -/
def isFloat (cs : List Char) : Bool :=
  let whole := cs.takeWhile isGroupChar
  let count := (whole.filter Char.isDigit).length
  count != 0 && (count == 1 || whole.head? != some '0') &&
    match cs.dropWhile isGroupChar with
    | '.' :: rest =>
      let exponent := rest.dropWhile isGroupChar
      (rest.takeWhile isGroupChar).any Char.isDigit && (exponent.isEmpty || isExponent exponent)
    | rest => isExponent rest

/-! ## Dates and times -/

/-- The number that exactly `n` digits write. -/
def fixed? (n : Nat) (cs : List Char) : Option Nat := if cs.length = n then number? 10 cs else none

def daysInMonth (year month : Nat) : Nat :=
  if month = 2 then
    if year % 4 = 0 ∧ (year % 100 ≠ 0 ∨ year % 400 = 0) then 29 else 28
  else if month = 4 ∨ month = 6 ∨ month = 9 ∨ month = 11 then 30
  else 31

/-- Whether the characters are a date that exists, `YYYY-MM-DD`. -/
def isDate (cs : List Char) : Bool :=
  match cs.splitOn '-' with
  | [y, m, d] =>
    match fixed? 4 y, fixed? 2 m, fixed? 2 d with
    | some y, some m, some d => 1 ≤ m && m ≤ 12 && 1 ≤ d && d ≤ daysInMonth y m
    | _, _, _ => false
  | _ => false

/-- Whether the characters are hours and minutes, `HH:MM`. -/
def isHourMinute (cs : List Char) : Bool :=
  match cs.splitOn ':' with
  | [h, m] =>
    match fixed? 2 h, fixed? 2 m with
    | some h, some m => h ≤ 23 && m ≤ 59
    | _, _ => false
  | _ => false

/-- Whether the characters are a second, with a fraction or without. -/
def isSecond (cs : List Char) : Bool :=
  (match fixed? 2 (cs.take 2) with
    | some s => s ≤ 60
    | none => false) &&
  match cs.drop 2 with
  | [] => true
  | '.' :: ds => (number? 10 ds).isSome
  | _ => false

/-- Whether the characters are a time, `HH:MM` or `HH:MM:SS` with a fraction or without. -/
def isTime (cs : List Char) : Bool :=
  isHourMinute (cs.take 5) &&
  match cs.drop 5 with
  | [] => true
  | ':' :: s => isSecond s
  | _ => false

/-- Whether the characters are a time with or without its distance from universal time. -/
def isOffsetTime (cs : List Char) : Bool :=
  isTime cs ||
  (match cs.getLast? with
    | some 'Z' | some 'z' => isTime cs.dropLast
    | _ => false) ||
  let time := cs.take (cs.length - 6)
  match cs.drop (cs.length - 6) with
  | '+' :: offset | '-' :: offset => isTime time && isHourMinute offset
  | _ => false

/-- Whether the characters are a date, a time, or a date and a time. -/
def isDateTime (cs : List Char) : Bool :=
  isDate cs || isTime cs ||
  isDate (cs.take 10) &&
  match cs.drop 10 with
  | c :: time => (c = 'T' ∨ c = 't' ∨ c = ' ') && isOffsetTime time
  | [] => false

/-! ## Any value -/

/-- The value that a run of characters writes, if it writes one. -/
def read? (cs : List Char) : Option Value :=
  let (sign, value) := splitSign cs
  let grouped (isDigit : Char → Bool) : Bool := isGrouped isDigit sign.isSome value
  match cs with
  | ['t', 'r', 'u', 'e'] => some (.boolean true)
  | ['f', 'a', 'l', 's', 'e'] => some (.boolean false)
  | '0' :: 'x' :: ds => based? 16 ds
  | '0' :: 'o' :: ds => based? 8 ds
  | '0' :: 'b' :: ds => based? 2 ds
  | _ =>
    if value = ['i', 'n', 'f'] ∨ value = ['n', 'a', 'n'] then some (.float (String.ofList cs))
    else
      let leadingZero : Bool := value.head? == some '0' && value.length != 1
      match value.dropWhile Char.isDigit with
      | [] => if value.isEmpty || leadingZero then none else some (integer 10 sign value)
      | c :: rest =>
        if c = '-' ∨ c = ':' then
          if isDateTime cs then some (.dateTime (String.ofList cs)) else none
        else if (c :: rest).any fun d => d == '.' || d == 'e' || d == 'E' then
          if isFloat value && grouped Char.isDigit then some (.float (String.ofList cs)) else none
        else if c = '_' ∧ leadingZero = false ∧ grouped (isDigitIn 16) then
          some (integer 10 sign value)
        else none

/-- The characters that unquoted values consist of: all but those that have a meaning around
them. -/
def isScalarChar (c : Char) : Bool :=
  c ∉ ['=', ',', '[', ']', '\x7b', '\x7d', ' ', '\t', '#', '\r', '\n']

/-- Cuts behind an unquoted value. A blank belongs to it only between a date and a time. -/
def split (cs : List Char) : List Char × List Char :=
  let run := cs.takeWhile isScalarChar
  match cs.dropWhile isScalarChar with
  | ' ' :: d :: rest =>
    if isDate run && d.isDigit then
      (run ++ ' ' :: (d :: rest).takeWhile isScalarChar, (d :: rest).dropWhile isScalarChar)
    else (run, ' ' :: d :: rest)
  | rest => (run, rest)

end Listing.Toml.Scalar
