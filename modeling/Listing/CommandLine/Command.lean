import Listing.CommandLine.Arguments
import Listing.Clause.Condition
import Listing.Request.Basic
import Listing.Text.Split

/-!
# Commands

There are two commands: `compose` shows the statement for a listing request, `check-config` shows
what a configuration amounts to. `Invocation.ofArguments` reads the arguments of the program;
options are taken up in the order in which they are given, and a request for help counts only if
nothing before it is wrong.
-/

namespace Listing.CommandLine

/-- Where the base statement comes from. -/
inductive BaseSource where
  | text (sql : String)
  | file (path : String)
deriving DecidableEq, Repr

/-- A listing request together with the base statement it is for. -/
structure ComposeCommand where
  /-- The file with the configuration; without it all options have their defaults. -/
  config : Option String
  base : BaseSource
  dialect : Dialect
  request : Request
  /-- The values of the base statement's own placeholders. -/
  params : List String
  /-- Whether to compose the statement without a limit. -/
  unbounded : Bool
  /-- Whether to print JSON. -/
  json : Bool
deriving DecidableEq, Repr

inductive Command where
  | compose (c : ComposeCommand)
  | checkConfig (path : String)
deriving DecidableEq, Repr

/-- What the program is asked to do. -/
inductive Invocation where
  | run (command : Command)
  | help
  | version
deriving DecidableEq, Repr

/-! ## The options of `compose` -/

inductive ComposeOption where
  | config
  | sql
  | sqlFile
  | dialect
  | filter
  | search
  | sort
  | page
  | limit
  | param
  | unbounded
  | json
  | help
deriving DecidableEq, Repr

namespace ComposeOption

def forms : List (OptionForm ComposeOption) := [
  ⟨config, "config", some 'c', true⟩,
  ⟨sql, "sql", none, true⟩,
  ⟨sqlFile, "sql-file", none, true⟩,
  ⟨dialect, "dialect", some 'd', true⟩,
  ⟨filter, "filter", some 'f', true⟩,
  ⟨search, "search", some 's', true⟩,
  ⟨sort, "sort", none, true⟩,
  ⟨page, "page", none, true⟩,
  ⟨limit, "limit", none, true⟩,
  ⟨param, "param", none, true⟩,
  ⟨unbounded, "unbounded", none, false⟩,
  ⟨json, "json", none, false⟩,
  ⟨help, "help", some 'h', false⟩]

end ComposeOption

/-- The options of `compose` as far as they have been taken up. -/
structure ComposeDraft where
  config : Option String := none
  sql : Option String := none
  sqlFile : Option String := none
  dialect : Option Dialect := none
  request : Request := {}
  params : List String := []
  unbounded : Bool := false
  json : Bool := false

/-- The value of an option that may be given once. -/
def once {α : Type} (name : String) (present : Option α) (value : α) :
    Except UsageError (Option α) :=
  match present with
  | some _ => .error (.repeatedOption name)
  | none => .ok (some value)

/-- The switch of an option that may be given once. -/
def switchOnce (name : String) (present : Bool) : Except UsageError Bool :=
  if present then .error (.repeatedOption name) else .ok true

/-- A file name, which must not be empty. -/
def fileName (name value : String) : Except UsageError String :=
  if value.isEmpty then .error (.missingValue name) else .ok value

/-- The two parts of a value `KEY=VALUE`. -/
def pair (name value : String) : Except UsageError (String × String) :=
  match Text.splitOnce '=' value with
  | some parts => .ok parts
  | none => .error (.invalidValue name value)

def dialectOf (value : String) : Except UsageError Dialect :=
  match [("postgres", Dialect.postgres), ("sqlite", Dialect.sqlite)].lookup value with
  | some dialect => .ok dialect
  | none => .error (.invalidValue "dialect" value)

namespace ComposeDraft

/-- Takes up an option with its value. -/
def set (d : ComposeDraft) (value : String) : ComposeOption → Except UsageError ComposeDraft
  | .config => do
    let config ← once "config" d.config (← fileName "config" value)
    return { d with config }
  | .sql => do
    let sql ← once "sql" d.sql value
    return { d with sql }
  | .sqlFile => do
    let sqlFile ← once "sql-file" d.sqlFile (← fileName "sql-file" value)
    return { d with sqlFile }
  | .dialect => do
    let dialect ← once "dialect" d.dialect (← dialectOf value)
    return { d with dialect }
  | .filter => do
    let entry ← pair "filter" value
    return { d with request.filters := d.request.filters ++ [entry] }
  | .search => do
    let search ← once "search" d.request.search value
    return { d with request.search := search }
  | .sort => do
    let entry ← pair "sort" value
    return { d with request.sorts := d.request.sorts ++ [entry] }
  | .page => do
    let page ← once "page" d.request.page value
    return { d with request.page := page }
  | .limit => do
    let limit ← once "limit" d.request.limit value
    return { d with request.limit := limit }
  | .param => return { d with params := d.params ++ [value] }
  | .unbounded => do
    let unbounded ← switchOnce "unbounded" d.unbounded
    return { d with unbounded }
  | .json => do
    let json ← switchOnce "json" d.json
    return { d with json }
  | .help => return d

/-- The command of a complete set of options. -/
def finish (d : ComposeDraft) : Except UsageError ComposeCommand := do
  let base ← match d.sql, d.sqlFile with
    | some _, some _ => .error (.conflictingOptions "sql" "sql-file")
    | some sql, none => .ok (BaseSource.text sql)
    | none, some path => .ok (BaseSource.file path)
    | none, none => .error (.missingOption "sql")
  return {
    config := d.config
    base
    dialect := d.dialect.getD .postgres
    request := d.request
    params := d.params
    unbounded := d.unbounded
    json := d.json }

/-- Takes up all options, up to a request for help. -/
def interpret (fault : Option UsageError) (d : ComposeDraft) :
    List (ComposeOption × String) → Except UsageError Invocation
  | [] =>
    match fault with
    | some e => .error e
    | none => d.finish.map fun c => .run (.compose c)
  | (.help, _) :: _ => .ok .help
  | (option, value) :: rest =>
    match d.set value option with
    | .error e => .error e
    | .ok d => interpret fault d rest

end ComposeDraft

/-! ## The options of `check-config` -/

inductive CheckOption where
  | config
  | help
deriving DecidableEq, Repr

def CheckOption.forms : List (OptionForm CheckOption) :=
  [⟨config, "config", some 'c', true⟩, ⟨help, "help", some 'h', false⟩]

/-- Takes up the options of `check-config`, up to a request for help. -/
def interpretCheck (fault : Option UsageError) (path : Option String) :
    List (CheckOption × String) → Except UsageError Invocation
  | [] =>
    match fault, path with
    | some e, _ => .error e
    | none, some path => .ok (.run (.checkConfig path))
    | none, none => .error (.missingOption "config")
  | (.help, _) :: _ => .ok .help
  | (.config, value) :: rest =>
    match (fileName "config" value).bind (once "config" path) with
    | .error e => .error e
    | .ok path => interpretCheck fault path rest

/-! ## The program -/

/-- The names of the commands. -/
def commandNames : List String := ["compose", "check-config", "help"]

/-- Reads the arguments of the program. -/
def Invocation.ofArguments : List String → Except UsageError Invocation
  | [] => .error .missingCommand
  | arg :: args =>
    match Argument.of arg with
    | .plain "compose" =>
      let r := readOptions ComposeOption.forms args
      ComposeDraft.interpret r.fault {} r.given
    | .plain "check-config" =>
      let r := readOptions CheckOption.forms args
      interpretCheck r.fault none r.given
    | .plain "help" =>
      match args with
      | [] => .ok .help
      | [topic] =>
        if commandNames.contains topic then .ok .help else .error (.unexpectedArgument topic)
      | _ :: other :: _ => .error (.unexpectedArgument other)
    | .long "help" none | .cluster ('h' :: _) => .ok .help
    | .long "version" none | .cluster ('V' :: _) => .ok .version
    | _ => .error (.unexpectedArgument arg)

end Listing.CommandLine
