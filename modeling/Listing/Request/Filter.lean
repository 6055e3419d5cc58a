import Listing.Config.Basic
import Listing.Text.Blank
import Listing.Text.Split

/-!
# Filters

A filter entry of a request has a key `column[:operator]` and a value. An entry counts if its
operator is known, its column is allowed and its value is not empty; any other is dropped without an
error. The value of a range filter holds both bounds with a `~` between them; a value that does not
hold exactly one `~` is kept as it is and refused later, when the filter is compiled.
-/

namespace Listing

/-- The operators that a request may name. -/
inductive FilterOperator where
  | contains
  | begins
  | ends
  | sensibleContains
  | sensibleBegins
  | sensibleEnds
  | equals
  | between
  | less
  | greater
  | lessEquals
  | greaterEquals
deriving DecidableEq, Repr

namespace FilterOperator

def all : List FilterOperator :=
  [contains, begins, ends, sensibleContains, sensibleBegins, sensibleEnds, equals, between, less,
    greater, lessEquals, greaterEquals]

/-- The name of an operator in requests. -/
def name : FilterOperator → String
  | contains => "contains"
  | begins => "begins"
  | ends => "ends"
  | sensibleContains => "sensible_contains"
  | sensibleBegins => "sensible_begins"
  | sensibleEnds => "sensible_ends"
  | equals => "equals"
  | between => "between"
  | less => "less"
  | greater => "greater"
  | lessEquals => "less_equals"
  | greaterEquals => "greater_equals"

def ofName? (s : String) : Option FilterOperator := all.find? (·.name == s)

/-- Whether the operator distinguishes upper and lower case. -/
def isCaseSensitive : FilterOperator → Bool
  | sensibleContains | sensibleBegins | sensibleEnds => true
  | _ => false

/-- The comparison that an operator asks for. -/
def comparison : FilterOperator → Comparison
  | contains | sensibleContains => .contains
  | begins | sensibleBegins => .beginsWith
  | ends | sensibleEnds => .endsWith
  | equals => .equal
  | between => .between
  | less => .less
  | greater => .greater
  | lessEquals => .lessOrEqual
  | greaterEquals => .greaterOrEqual

/-- The operator of a key that names none. -/
def fallback : FilterOperator := contains

end FilterOperator

/-- The mark between the two bounds of a range. -/
def rangeMark : Char := '~'

/-- The value of a filter. -/
inductive FilterValue where
  | single (s : String)
  | range (low high : String)
deriving DecidableEq, Repr

namespace FilterValue

/-- The value of a range filter: two bounds if there is exactly one mark. -/
def ofRange (raw : String) : FilterValue :=
  match Text.splitTwo rangeMark raw with
  | some (low, high) => range low high
  | none => single raw

/-- The value as it stands in a request. -/
def raw : FilterValue → String
  | single s => s
  | range low high => low ++ String.singleton rangeMark ++ high

end FilterValue

/-- A filter that counts. -/
structure Filter where
  /-- The column as the request names it. -/
  field : String
  /-- The column that the name stands for. -/
  column : String
  operator : FilterOperator
  value : FilterValue
deriving DecidableEq, Repr

namespace Filter

/-- The column and the name of the operator in a key. -/
def splitKey (key : String) : String × String :=
  (Text.splitOnce ':' key).getD (key, FilterOperator.fallback.name)

/-- The filter of an entry, if the entry counts. -/
def parse? (config : Config) (entry : String × String) : Option Filter :=
  let (field, operatorName) := splitKey entry.1
  match FilterOperator.ofName? operatorName with
  | none => none
  | some operator =>
    if config.isAllowed field && !entry.2.isEmpty then
      some {
        field
        column := config.resolve field
        operator
        value := if operator = .between then .ofRange entry.2 else .single entry.2 }
    else none

end Filter

/-- The filters and the search term of a request that count. -/
structure FilterSpec where
  filters : List Filter
  search : Option String
deriving DecidableEq, Repr

namespace FilterSpec

/-- The term that is searched for: trimmed, and none if searching is disabled or nothing is left. -/
def searchTerm (config : Config) (raw : Option String) : Option String :=
  if config.searchEnabled then (raw.map Text.trim).filter fun term => !term.isEmpty else none

/-- The entries that count, in the order of the request, and the search term. -/
def ofRequest (config : Config) (entries : List (String × String)) (search : Option String) :
    FilterSpec :=
  ⟨entries.filterMap (Filter.parse? config), searchTerm config search⟩

/-- The filters on one column, as the request names it. -/
def filtersFor (spec : FilterSpec) (field : String) : List Filter :=
  spec.filters.filter (·.field == field)

def isEmpty (spec : FilterSpec) : Bool := spec.filters.isEmpty && spec.search.isNone

end FilterSpec

end Listing
