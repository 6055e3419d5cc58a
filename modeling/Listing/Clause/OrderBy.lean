/-!
# ORDER BY and LIMIT clauses

The order in which rows come, and the part of them that a statement asks for.
-/

namespace Listing

/-! ## ORDER BY -/

inductive Direction where
  | ascending
  | descending
deriving DecidableEq, Repr

namespace Direction

/-- The SQL word of a direction. -/
def keyword : Direction → String
  | ascending => "ASC"
  | descending => "DESC"

/-- The word by which requests and configurations name a direction. -/
def name : Direction → String
  | ascending => "asc"
  | descending => "desc"

/-- The direction of a name; only the two exact words name one. -/
def ofName? (s : String) : Option Direction := [ascending, descending].find? (·.name == s)

end Direction

/-- A column to sort by. -/
structure SortField where
  column : String
  direction : Direction
  /-- Whether rows without a value come last, whatever the database does by itself. -/
  nullsLast : Bool
deriving DecidableEq, Repr

/-- The column and its direction in SQL. -/
def SortField.render (field : SortField) : String :=
  field.column ++ " " ++ field.direction.keyword ++ if field.nullsLast then " NULLS LAST" else ""

/-- Columns to sort by, the first one first. -/
structure OrderBy where
  fields : List SortField
deriving DecidableEq, Repr

namespace OrderBy

def isEmpty (order : OrderBy) : Bool := order.fields.isEmpty

/-- The columns in SQL without the words `ORDER BY`. -/
def render (order : OrderBy) : String := ", ".intercalate (order.fields.map SortField.render)

end OrderBy

/-! ## LIMIT -/

/-- The part of the result that a statement asks for. -/
inductive Limit where
  | unbounded
  /-- At most `limit` rows after skipping `offset`. -/
  | bounded (limit offset : Nat)
deriving DecidableEq, Repr

namespace Limit

def isBounded : Limit → Bool
  | unbounded => false
  | bounded _ _ => true

def limit? : Limit → Option Nat
  | unbounded => none
  | bounded limit _ => some limit

def offset? : Limit → Option Nat
  | unbounded => none
  | bounded _ offset => some offset

/-- The clause in SQL, empty if there is no bound. -/
def render : Limit → String
  | unbounded => ""
  | bounded limit offset => "LIMIT " ++ toString limit ++ " OFFSET " ++ toString offset

end Limit

end Listing
