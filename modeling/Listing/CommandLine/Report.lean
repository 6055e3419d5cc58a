import Listing.Config.Basic
import Listing.Row
import Listing.Statement.Compose

/-!
# What the program prints

A statement is printed with a comment line for each of its parameters, `-- placeholder = value`. The
value is in JSON on one line, so that whatever it holds it stays within its comment. A configuration
is printed with one line for each option.
-/

namespace Listing.CommandLine

/-- The comment line of a parameter. -/
def paramLine (dialect : Dialect) (n : Nat) (value : Value) : String :=
  "-- " ++ dialect.placeholder n ++ " = " ++ value.toJson.compact ++ "\n"

/-- The comment lines of parameters, the first one numbered `n`. -/
def paramLines (dialect : Dialect) (n : Nat) : List Value → String
  | [] => ""
  | v :: vs => paramLine dialect n v ++ paramLines dialect (n + 1) vs

/-- A statement with its parameters in comment lines. -/
def annotated (dialect : Dialect) (query : Composed) : String :=
  query.sql ++ "\n" ++ paramLines dialect 1 query.params

/-- A statement with its parameters in JSON. -/
def asJson (query : Composed) : String :=
  Json.pretty (.object [
    ("sql", .string query.sql),
    ("params", .array (query.params.map Value.toJson)),
    ("countAlias", .string query.countAlias)]) ++ "\n"

/-- Items between commas, or a word for none. -/
def enumeration (items : List String) : String :=
  if items.isEmpty then "(none)" else ", ".intercalate items

/-- A configuration with one line for each option. -/
def description (config : Config) : String :=
  let whitelist :=
    match config.whitelist with
    | none => "(none: any safe identifier)"
    | some columns => enumeration columns.names
  let aliases := config.aliases.entries.map fun (name, column) => name ++ " -> " ++ column
  let sorts := config.defaultSorts.map fun sort => sort.column ++ " " ++ sort.direction.keyword
  String.join [
    "whitelist:        ", whitelist, "\n",
    "aliases:          ", enumeration aliases, "\n",
    "searchable:       ", enumeration config.searchable, "\n",
    "default sorts:    ", enumeration sorts, "\n",
    "nulls last:       asc=", toString config.ascNullsLast, " desc=",
      toString config.descNullsLast, "\n",
    "limits:           default=", toString config.defaultLimit.toNat, " max=",
      toString config.maxLimit.toNat, "\n",
    "aggregate:        ", config.connective.keyword, "\n",
    "search enabled:   ", toString config.searchEnabled, "\n",
    "count alias:      ", config.countAlias, "\n"]

end Listing.CommandLine
