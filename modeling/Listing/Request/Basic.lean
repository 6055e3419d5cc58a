/-!
# Listing requests

A request is what a client sends, as it sends it: texts that nothing has looked at yet. What of it
counts is decided by `FilterSpec`, `SortSpec` and `Pagination`, each with the configuration at hand.
-/

namespace Listing

/-- The directives of a listing request, unparsed and in the order in which they came. -/
structure Request where
  /-- Keys `column[:operator]` and values. -/
  filters : List (String × String) := []
  search : Option String := none
  /-- Columns and directions. -/
  sorts : List (String × String) := []
  page : Option String := none
  limit : Option String := none
deriving DecidableEq, Repr

end Listing
