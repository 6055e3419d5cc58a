import Listing.Clause.OrderBy
import Listing.Clause.Where
import Listing.Names

/-!
# Listing options

What can be configured about a listing, before anything is checked. Options start from the defaults
and are changed by one setting after the other: a setting replaces what it sets, except that aliases
are collected by name and default sorts in the order in which they come.
-/

namespace Listing

/-- A sort used when a request asks for none. The column is named as in requests. -/
structure DefaultSort where
  column : String
  direction : Direction
deriving DecidableEq, Repr

structure Options where
  /-- The columns that requests may name; without it, every plain identifier. -/
  whitelist : Option NameSet := none
  /-- The columns that the names in requests stand for. -/
  aliases : NameMap := .empty
  /-- The columns that a search term is looked for in. -/
  searchable : List String := []
  defaultSorts : List DefaultSort := []
  ascNullsLast : Bool := false
  descNullsLast : Bool := false
  /-- The page size of a request that names none. -/
  defaultLimit : UInt32 := 25
  /-- The greatest page size. -/
  maxLimit : UInt32 := 100
  /-- What joins the conditions on different columns. -/
  connective : Connective := .and
  searchEnabled : Bool := true
  /-- The name of the column with the total count. -/
  countAlias : String := "_zf_count"

/-- A change to one option. -/
inductive Setting where
  | whitelist (columns : List String)
  | aliased (name column : String)
  | searchable (columns : List String)
  | defaultSort (column : String) (direction : Direction)
  | ascNullsLast (yes : Bool)
  | descNullsLast (yes : Bool)
  | defaultLimit (n : UInt32)
  | maxLimit (n : UInt32)
  | connective (c : Connective)
  | searchEnabled (yes : Bool)
  | countAlias (name : String)

namespace Options

def set (o : Options) : Setting → Options
  | .whitelist columns => { o with whitelist := some (NameSet.ofList columns) }
  | .aliased name column => { o with aliases := o.aliases.insert name column }
  | .searchable columns => { o with searchable := columns }
  | .defaultSort column direction =>
    { o with defaultSorts := o.defaultSorts ++ [⟨column, direction⟩] }
  | .ascNullsLast yes => { o with ascNullsLast := yes }
  | .descNullsLast yes => { o with descNullsLast := yes }
  | .defaultLimit n => { o with defaultLimit := n }
  | .maxLimit n => { o with maxLimit := n }
  | .connective c => { o with connective := c }
  | .searchEnabled yes => { o with searchEnabled := yes }
  | .countAlias name => { o with countAlias := name }

/-- The defaults, changed by the settings in turn. -/
def ofSettings (settings : List Setting) : Options := settings.foldl set {}

end Options

end Listing
