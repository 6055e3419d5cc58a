import Listing.Clause.OrderBy
import Listing.Clause.Where
import Listing.Error
import Listing.Statement.Outline
import Listing.Statement.Splice
import Listing.Text.Blank

/-!
# The places for listing clauses

A site is a base statement with the places in it that matter to a listing: behind the SELECT keyword
or the quantifier ALL, where the count column goes, and behind the first FROM, where its clauses
begin. From there on the site tells which edits add a predicate and sort columns.

A statement without a SELECT at its top level, one that selects DISTINCT rows, and one whose
selected columns mention the count column already have no site.
-/

namespace Listing

open Text

structure Site where
  text : List UInt8
  outline : Outline
  /-- The end of the SELECT keyword or its quantifier. -/
  projection : Nat
  /-- The end of the first FROM behind SELECT, or of SELECT if there is none. -/
  scope : Nat
deriving DecidableEq, Repr

namespace Site

/-- The word that follows a position with no code between them, such as the quantifier of SELECT. -/
def wordBehind? (o : Outline) (position : Nat) : Option Word :=
  (o.wordsBetween position o.codeEnd).head?.filter (·.before == position)

/-- The site of a base statement, for a count column of a given name. -/
def locate (countAlias : String) (text : List UInt8) : Except Error Site :=
  let outline := Outline.of text
  match outline.first? .select 0 with
  | none => .error (.unsupported .noSelect)
  | some select =>
    let scope := ((outline.first? .from select.stop).map (·.stop)).getD select.stop
    let quantifier := wordBehind? outline select.stop
    if quantifier.any (·.spells "distinct") then .error (.unsupported .distinct)
    else if (outline.wordsBetween select.stop scope).any (·.spells countAlias) then
      .error .alreadyComposed
    else
      let projection := ((quantifier.filter (·.spells "all")).map (·.stop)).getD select.stop
      .ok ⟨text, outline, projection, scope⟩

/-- Where the statement limits its rows itself. -/
def paging? (site : Site) : Option Place := site.outline.earliest? Keyword.paging site.scope

/-- Adds the count column in front of the selected columns. -/
def countEdit (site : Site) (countAlias : String) : Edit :=
  ⟨site.projection, " count(*) OVER() AS " ++ countAlias ++ ","⟩

/-- Where a predicate goes whose clause begins at or behind a position: in front of the next clause,
or at the end of the code. -/
def predicateEnd (site : Site) (position : Nat) : Nat :=
  max position (((site.outline.earliest? Keyword.afterWhere position).map (·.before)).getD
    site.outline.codeEnd)

/-- Adds a predicate. One that is there already is put in parentheses first, and so is the new one
if it has several groups, since they might be joined by OR. -/
def predicateEdits (site : Site) (clause : WhereClause) (predicate : String) : List Edit :=
  if clause.isEmpty then []
  else
    match site.outline.first? .where site.scope with
    | none => [⟨site.predicateEnd site.scope, " WHERE " ++ predicate⟩]
    | some present =>
      let start := present.stop + blankRun (site.text.drop present.stop)
      let stop := site.predicateEnd present.stop
      if start < stop then
        let added := if 1 < clause.groups.length then "(" ++ predicate ++ ")" else predicate
        [⟨start, "("⟩, ⟨stop, ") AND " ++ added⟩]
      else [⟨stop, " " ++ predicate⟩]

/-- Adds sort columns, in front of those that are there already. -/
def orderEdits (site : Site) (order : OrderBy) : List Edit :=
  if order.isEmpty then []
  else
    match site.outline.last? .orderBy site.scope with
    | some present => [⟨present.stop, " " ++ order.render ++ ","⟩]
    | none =>
      let position := max site.scope ((site.paging?.map (·.before)).getD site.outline.codeEnd)
      [⟨position, " ORDER BY " ++ order.render⟩]

end Site

end Listing
