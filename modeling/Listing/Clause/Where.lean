import Listing.Clause.Condition

/-!
# WHERE clauses

A clause is a list of groups joined by one connective. A group is a list of alternatives of which
one has to hold, and is always rendered in parentheses. A group without alternatives says nothing
and is not taken up (`WhereClause.push`).
-/

namespace Listing

/-- What joins the groups of a clause. -/
inductive Connective where
  /-- All groups have to hold. -/
  | and
  /-- One group has to hold. -/
  | or
deriving DecidableEq, Repr

/-- The SQL word of a connective. -/
def Connective.keyword : Connective → String
  | and => "AND"
  | or => "OR"

/-- Groups of alternatives and what joins them. -/
structure WhereClause where
  connective : Connective
  groups : List (List Condition)

namespace WhereClause

/-- The clause without groups. -/
def empty (connective : Connective) : WhereClause := ⟨connective, []⟩

/-- Appends a group, unless it has no alternatives. -/
def push (clause : WhereClause) (group : List Condition) : WhereClause :=
  if group.isEmpty then clause else { clause with groups := clause.groups ++ [group] }

/-- The clause of several groups. -/
def ofGroups (connective : Connective) (groups : List (List Condition)) : WhereClause :=
  groups.foldl push (empty connective)

def isEmpty (clause : WhereClause) : Bool := clause.groups.isEmpty

/-- A group in SQL, its placeholders numbered from `n` on. -/
def renderGroup (dialect : Dialect) (n : Nat) (group : List Condition) : Fragment :=
  let body := Fragment.join " OR " (Fragment.sequence (Condition.render dialect) n group)
  { body with sql := "(" ++ body.sql ++ ")" }

/-- The clause in SQL without the word `WHERE`, its placeholders numbered from `n` on. -/
def render (dialect : Dialect) (n : Nat) (clause : WhereClause) : Fragment :=
  Fragment.join (" " ++ clause.connective.keyword ++ " ")
    (Fragment.sequence (renderGroup dialect) n clause.groups)

end WhereClause

end Listing
