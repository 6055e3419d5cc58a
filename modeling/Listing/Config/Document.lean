import Listing.Config.Basic
import Listing.Toml.Document

/-!
# Configurations in TOML

A configuration document gives every option under its name; an option that is missing keeps its
default. A key that names no option, and a value of the wrong kind, make the whole document
malformed.
-/

namespace Listing

namespace ConfigDocument

def string? : Toml.Value → Option String
  | .string s => some s
  | _ => none

def boolean? : Toml.Value → Option Bool
  | .boolean b => some b
  | _ => none

/-- An integer from 0 to 2^32 - 1. -/
def limit? : Toml.Value → Option UInt32
  | .integer (some n) => if 0 ≤ n ∧ n < UInt32.size then some n.toNat.toUInt32 else none
  | _ => none

def strings? : Toml.Value → Option (List String)
  | .array _ items => items.mapM string?
  | _ => none

/-- A map from names to names. A date in its place counts as a table with one reserved key. -/
def names? : Toml.Value → Option NameMap
  | .table _ entries =>
    entries.foldlM (fun (m : NameMap) entry => (string? entry.2).map (m.insert entry.1)) .empty
  | .dateTime text => some (NameMap.empty.insert "$__toml_private_datetime" text)
  | _ => none

/-- One of several named choices: its name, or a table with the name as its only key and nothing
under it. -/
def choice? {α : Type} (choices : List (String × α)) : Toml.Value → Option α
  | .string s => choices.lookup s
  | .table _ [(k, .table _ [])] | .table _ [(k, .array _ [])] => choices.lookup k
  | _ => none

def direction? : Toml.Value → Option Direction :=
  choice? [("asc", .ascending), ("desc", .descending)]

def connective? : Toml.Value → Option Connective :=
  choice? [("AND", .and), ("and", .and), ("OR", .or), ("or", .or)]

/-- A default sort: a table with a column and a direction, or an array that starts with them. -/
def defaultSort? : Toml.Value → Option DefaultSort
  | .table _ entries => do
    if entries.length = 2 then
      some ⟨← string? (← entries.lookup "column"), ← direction? (← entries.lookup "direction")⟩
    else none
  | .array _ (column :: direction :: _) => do
    some ⟨← string? column, ← direction? direction⟩
  | _ => none

def defaultSorts? : Toml.Value → Option (List DefaultSort)
  | .array _ items => items.mapM defaultSort?
  | _ => none

/-- Takes up the value of an option, by the option's name. -/
def readOption (o : Options) : String × Toml.Value → Option Options
  | ("whitelist", v) => (strings? v).map fun names => { o with whitelist := some (.ofList names) }
  | ("alias_columns", v) => (names? v).map fun aliases => { o with aliases }
  | ("searchable_columns", v) => (strings? v).map fun searchable => { o with searchable }
  | ("default_sorts", v) => (defaultSorts? v).map fun defaultSorts => { o with defaultSorts }
  | ("asc_nulls_last", v) => (boolean? v).map fun ascNullsLast => { o with ascNullsLast }
  | ("desc_nulls_last", v) => (boolean? v).map fun descNullsLast => { o with descNullsLast }
  | ("default_limit", v) => (limit? v).map fun defaultLimit => { o with defaultLimit }
  | ("max_limit_allowed", v) => (limit? v).map fun maxLimit => { o with maxLimit }
  | ("aggregate_operator", v) => (connective? v).map fun connective => { o with connective }
  | ("search_enabled", v) => (boolean? v).map fun searchEnabled => { o with searchEnabled }
  | ("count_alias", v) => (string? v).map fun countAlias => { o with countAlias }
  | _ => none

/-- The options that a document gives. -/
def options? (text : String) : Option Options := do
  (← Toml.Document.read? text).foldlM readOption {}

end ConfigDocument

/-- The configuration that a document describes. -/
def Config.ofDocument (text : String) : Except ConfigError Config :=
  match ConfigDocument.options? text with
  | none => .error .malformedDocument
  | some options => Config.build options

end Listing
