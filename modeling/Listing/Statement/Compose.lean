import Listing.Statement.Site

/-!
# Composed statements

A listing statement is a base statement with a count column, a predicate, sort columns and a limit
added to it. Apart from these insertions it is the code of the base statement byte for byte, and it
remembers which of its pieces are which. The values of the predicate follow the parameters of the
base statement, and its placeholders are numbered accordingly.
-/

namespace Listing

open Text

/-- A statement that is ready to run. -/
structure Composed where
  /-- The pieces of the base statement and those that were added. -/
  pieces : List Piece
  params : List Value
  /-- The name of the count column. -/
  countAlias : String
  /-- Where the count column stands in the statement, in bytes. -/
  countPosition : Nat

/-- The statement in SQL. -/
def Composed.sql (c : Composed) : String := String.join (c.pieces.map Piece.text)

/-- What comes behind the last clause: the limit, if there is one. -/
def Limit.tail (limit : Limit) : List Piece :=
  if limit.isBounded then [.added (" " ++ limit.render)] else []

/-- Adds the clauses of a listing to a base statement. -/
def compose (dialect : Dialect) (countAlias : String) (base : String) (baseParams : List Value)
    (clause : WhereClause) (order : OrderBy) (limit : Limit) : Except Error Composed := do
  let site ← Site.locate countAlias (bytes base)
  if limit.isBounded && site.paging?.isSome then
    throw (.unsupported .ownPaging)
  let predicate := clause.render dialect (baseParams.length + 1)
  let edits :=
    site.countEdit countAlias :: site.predicateEdits clause predicate.sql ++ site.orderEdits order
  match Edit.splice? (site.text.take site.outline.codeEnd) edits with
  | none => throw .misplacedEdit
  | some pieces =>
    return {
      pieces := pieces ++ limit.tail
      params := baseParams ++ predicate.params
      countAlias
      countPosition := site.projection + 1 }

end Listing
