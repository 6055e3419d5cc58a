import Listing.Value

/-!
# Conditions

A condition compares one column with one value. The column is SQL text; the value never is, it is
bound to placeholders: two for a range, one otherwise. A range needs a list of exactly two bounds.
With any other value it is rendered as a condition that no row meets, and binds nothing.

A comparison with a pattern means what a request searches for literally. The characters that the SQL
operator gives a meaning to are escaped in the way that this operator understands, and its wildcard
for any run of characters is put where the comparison leaves the text open. The operator written
into the statement and the pattern bound to its placeholder come from the same matcher.
-/

namespace Listing

/-! ## Comparisons -/

/-- How a condition compares a column with its value. The last three match a pattern. -/
inductive Comparison where
  | equal
  | greater
  | greaterOrEqual
  | less
  | lessOrEqual
  /-- Within two bounds, both included. -/
  | between
  /-- The text occurs somewhere. -/
  | contains
  /-- The text stands at the start. -/
  | beginsWith
  /-- The text stands at the end. -/
  | endsWith
deriving DecidableEq, Repr

namespace Comparison

/-- Whether the comparison matches a pattern. -/
def isPattern : Comparison → Bool
  | contains | beginsWith | endsWith => true
  | _ => false

/-- The SQL sign of a comparison with one value. -/
def sign : Comparison → String
  | greater => ">"
  | greaterOrEqual => ">="
  | less => "<"
  | lessOrEqual => "<="
  | _ => "="

end Comparison

/-! ## Operators that match patterns -/

/-- The SQL operators that compare a text with a pattern. -/
inductive Matcher where
  /-- `LIKE` with a backslash as escape character. -/
  | like
  /-- `ILIKE`, the same without regard to case. -/
  | ilike
  /-- `GLOB`, which escapes a character by a class that holds only it. -/
  | glob
deriving DecidableEq, Repr

namespace Matcher

/-- The wildcard for any run of characters. -/
def wildcard : Matcher → Char
  | like | ilike => '%'
  | glob => '*'

/-- A character as a pattern writes it to mean the character itself. -/
def escape : Matcher → Char → List Char
  | like, c | ilike, c => if c = '%' ∨ c = '_' ∨ c = '\\' then ['\\', c] else [c]
  | glob, c => if c = '*' ∨ c = '?' ∨ c = '[' then ['[', c, ']'] else [c]

/-- The pattern that finds a text where the comparison asks for it. -/
def pattern (m : Matcher) (comparison : Comparison) (needle : String) : String :=
  let literal := needle.toList.flatMap m.escape
  String.ofList <|
    match comparison with
    | .beginsWith => literal ++ [m.wildcard]
    | .endsWith => m.wildcard :: literal
    | _ => m.wildcard :: literal ++ [m.wildcard]

/-- The condition that a column matches the pattern of a placeholder. -/
def condition (m : Matcher) (column placeholder : String) : String :=
  match m with
  | like => column ++ " LIKE " ++ placeholder ++ " ESCAPE '\\'"
  | ilike => column ++ " ILIKE " ++ placeholder ++ " ESCAPE '\\'"
  | glob => column ++ " GLOB " ++ placeholder

end Matcher

/-! ## Dialects -/

/-- The two dialects differ in how a placeholder is written and in the operators that match
patterns. All other SQL text is the same in both. -/
inductive Dialect where
  | postgres
  | sqlite
deriving DecidableEq, Repr

namespace Dialect

/-- The mark in front of a placeholder's number. -/
def mark : Dialect → String
  | postgres => "$"
  | sqlite => "?"

/-- The placeholder of a number, counted from 1. -/
def placeholder (d : Dialect) (n : Nat) : String := d.mark ++ toString n

/-- The operator that matches patterns with or without regard to case. In SQLite `LIKE` disregards
the case of ASCII letters and `GLOB` does not. -/
def matcher (d : Dialect) (caseSensitive : Bool) : Matcher :=
  match d, caseSensitive with
  | postgres, true => .like
  | postgres, false => .ilike
  | sqlite, true => .glob
  | sqlite, false => .like

end Dialect

/-! ## Fragments

Placeholders are numbered consecutively in the order of their values, so a fragment that starts at
number `n` leaves off at `n` plus the number of its values, and that is where the next fragment
starts (`Fragment.sequence`). -/

/-- SQL text and the values of the placeholders in it, in order. -/
structure Fragment where
  sql : String
  params : List Value

namespace Fragment

/-- Renders a list of things, each from the number at which the one before left off. -/
def sequence {α : Type} (render : Nat → α → Fragment) (start : Nat) : List α → List Fragment
  | [] => []
  | a :: as =>
    let piece := render start a
    piece :: sequence render (start + piece.params.length) as

/-- Fragments with a separator between their texts. -/
def join (separator : String) (pieces : List Fragment) : Fragment where
  sql := separator.intercalate (pieces.map (·.sql))
  params := pieces.flatMap (·.params)

end Fragment

/-! ## Conditions -/

/-- A comparison of a column with a value. -/
structure Condition where
  column : String
  comparison : Comparison
  value : Value
  /-- Has a meaning for patterns only. -/
  caseSensitive : Bool

namespace Condition

/-- The condition that stands for a range without exactly two bounds. -/
def impossible (bounds : Nat) : String :=
  "1=0 /* BETWEEN requires 2 values, got " ++ toString bounds ++ " */"

/-- The condition in SQL, its placeholders numbered from `n` on. -/
def render (dialect : Dialect) (n : Nat) (c : Condition) : Fragment :=
  match c.comparison, c.value with
  | .between, .array [low, high] =>
    ⟨c.column ++ " BETWEEN " ++ dialect.placeholder n ++ " AND " ++ dialect.placeholder (n + 1),
      [low, high]⟩
  | .between, .array bounds => ⟨impossible bounds.length, []⟩
  | .between, _ => ⟨impossible 1, []⟩
  | comparison, value =>
    if comparison.isPattern then
      let matcher := dialect.matcher c.caseSensitive
      ⟨matcher.condition c.column (dialect.placeholder n),
        [.text (matcher.pattern comparison value.searchText)]⟩
    else
      ⟨c.column ++ " " ++ comparison.sign ++ " " ++ dialect.placeholder n, [value]⟩

end Condition

end Listing
