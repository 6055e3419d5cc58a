import Listing.Assoc
import Listing.Config.Basic

/-!
# Sorts

A sort entry of a request names a column and a direction. It counts if the column is allowed and the
direction is one of the two exact words. A column that is named more than once stands where it was
first named, with the direction it was last given. The default sorts apply only if the request has
no entry at all, not if none of its entries counts.
-/

namespace Listing

/-- The sorts of a request that count, and where rows without a value go. -/
structure SortSpec where
  fields : List SortField
  ascNullsLast : Bool
  descNullsLast : Bool
deriving DecidableEq, Repr

namespace SortSpec

/-- The column and the direction of an entry, if the entry counts. -/
def directive? (config : Config) (entry : String × String) : Option (String × Direction) :=
  match Direction.ofName? entry.2 with
  | some direction => if config.isAllowed entry.1 then some (entry.1, direction) else none
  | none => none

/-- Every column once, where it came first, with its last direction. -/
def settle (entries : List (String × Direction)) : List (String × Direction) :=
  entries.foldl (fun settled e => Assoc.alter e.1 (fun _ => e.2) settled) []

/-- The columns to sort by, as requests name them. -/
def columns (config : Config) (raw : List (String × String)) : List (String × Direction) :=
  if raw.isEmpty then config.defaultSorts.map fun sort => (sort.column, sort.direction)
  else settle (raw.filterMap (directive? config))

def ofRequest (config : Config) (raw : List (String × String)) : SortSpec where
  fields := (columns config raw).map fun (field, direction) =>
    ⟨config.resolve field, direction, config.nullsLast direction⟩
  ascNullsLast := config.ascNullsLast
  descNullsLast := config.descNullsLast

def isEmpty (spec : SortSpec) : Bool := spec.fields.isEmpty

/-- The sorts as an ORDER BY clause. -/
def orderBy (spec : SortSpec) : OrderBy := ⟨spec.fields⟩

end SortSpec

end Listing
