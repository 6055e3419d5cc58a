import Listing.Assoc
import Listing.Error
import Listing.Request.Filter

/-!
# The predicate of a request

The filters of a request become conditions, and the conditions the groups of a WHERE clause: one
group for each column, the columns in the order in which they first came, and last the group of the
search term. Only a range filter without a range cannot be compiled; the first such filter is
reported.
-/

namespace Listing

/-- The condition of a filter. -/
def Filter.compile (f : Filter) : Except Error Condition :=
  let condition (value : Value) : Condition :=
    ⟨f.column, f.operator.comparison, value, f.operator.isCaseSensitive⟩
  match f.operator, f.value with
  | .between, .range low high => .ok (condition (.array [.text low, .text high]))
  | .between, .single raw => .error (.malformedRange f.field raw)
  | _, value => .ok (condition (.text value.raw))

/-- The group that looks for a term in every searchable column. -/
def Config.search (config : Config) (term : String) : List Condition :=
  config.searchable.map fun column => ⟨column, .contains, .text term, false⟩

namespace FilterSpec

/-- Appends a condition to the group of its column. -/
def gather (groups : List (String × List Condition)) (c : Condition) :
    List (String × List Condition) :=
  Assoc.alter c.column (fun present => present.getD [] ++ [c]) groups

/-- The WHERE clause of the filters and the search term. -/
def whereClause (config : Config) (spec : FilterSpec) : Except Error WhereClause := do
  let conditions ← spec.filters.mapM Filter.compile
  let groups := (conditions.foldl gather []).map (·.2)
  let search := (spec.search.map config.search).toList
  return WhereClause.ofGroups config.connective (groups ++ search)

end FilterSpec

end Listing
