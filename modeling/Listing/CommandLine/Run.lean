import Listing.CommandLine.Command
import Listing.CommandLine.Files
import Listing.CommandLine.Report
import Listing.Config.Document
import Listing.Model

/-!
# Running a command

Commands read files through a function in any monad and end in a text to print or in a failure. The
configuration is read first, then the base statement, and only then is anything composed, so that of
several failures the first one in this order is told.
-/

namespace Listing.CommandLine

/-- Why a command failed: what it was about, and the cause behind it if that is a different one. -/
structure Failure where
  message : String
  cause : Option String := none
deriving DecidableEq, Repr

/-- The indentation of a printed cause. -/
def causeIndent : String := "    "

/-- The cause as it is printed in an indented block: the indentation is put in front of every line
but the first, which the block itself indents. -/
def Failure.causeBlock? (f : Failure) : Option String :=
  f.cause.map fun cause =>
    ("\n" ++ causeIndent).intercalate ((cause.toList.splitOn '\n').map String.ofList)

/-- How the program ends. -/
inductive Ending where
  | printed (text : String)
  | failed (failure : Failure)
  | refused (error : UsageError)
deriving DecidableEq, Repr

/-- The name and the version of the program. -/
def versionText : String := "funnel 0.1.0\n"

/-- What the program is for and which commands it has. A request for the help of a command prints it
too. -/
def helpText : String :=
  String.join [
    "Compose listing queries over hand-written SELECT statements\n\n",
    "Usage: funnel <COMMAND>\n\n",
    "Commands:\n",
    "  compose       Compose a listing query and print it with its bound parameters\n",
    "  check-config  Validate a listing configuration file and print the resolved options\n",
    "  help          Print this message or the help of the given subcommand(s)\n\n",
    "Options:\n",
    "  -h, --help     Print help\n",
    "  -V, --version  Print version\n"]

section

variable {m : Type → Type} [Monad m]

/-- Reads the configuration of a file, or takes the defaults. -/
def loadConfig (read : String → m (Except ReadError String)) :
    Option String → m (Except Failure Config)
  | none => pure (.ok .default)
  | some path => do
    match ← read path with
    | .error e => pure (.error ⟨"reading configuration from " ++ path, some e.message⟩)
    | .ok text =>
      match Config.ofDocument text with
      | .error e => pure (.error ⟨"invalid configuration in " ++ path, some e.message⟩)
      | .ok config => pure (.ok config)

/-- Reads the base statement. -/
def loadBase (read : String → m (Except ReadError String)) : BaseSource → m (Except Failure String)
  | .text sql => pure (.ok sql)
  | .file path => do
    match ← read path with
    | .error e => pure (.error ⟨"reading base statement from " ++ path, some e.message⟩)
    | .ok sql => pure (.ok sql)

/-- The statement for a request without its page: the base statement keeps the limit that it has. -/
def composeUnbounded (dialect : Dialect) (config : Config) (base : String) (request : Request)
    (baseParams : List Value) : Except Error Composed := do
  let filters := FilterSpec.ofRequest config request.filters request.search
  let sorts := SortSpec.ofRequest config request.sorts
  let clause ← filters.whereClause config
  compose dialect config.countAlias base baseParams clause sorts.orderBy .unbounded

/-- What `compose` prints for a configuration and a base statement. -/
def ComposeCommand.output (c : ComposeCommand) (config : Config) (base : String) :
    Except Failure String :=
  let baseParams := c.params.map Value.text
  let query :=
    if c.unbounded then composeUnbounded c.dialect config base c.request baseParams
    else (Model.prepare ⟨c.dialect, config, base, baseParams⟩ c.request).map (·.query)
  match query with
  | .error e => .error ⟨e.message, none⟩
  | .ok query => .ok (if c.json then asJson query else annotated c.dialect query)

/-- Runs a command up to what it prints. -/
def Command.run (read : String → m (Except ReadError String)) : Command → m (Except Failure String)
  | .compose c => do
    match ← loadConfig read c.config with
    | .error e => pure (.error e)
    | .ok config =>
      match ← loadBase read c.base with
      | .error e => pure (.error e)
      | .ok base => pure (c.output config base)
  | .checkConfig path => do
    match ← loadConfig read (some path) with
    | .error e => pure (.error e)
    | .ok config => pure (.ok (description config))

/-- Runs the program with its arguments. -/
def run (read : String → m (Except ReadError String)) (arguments : List String) : m Ending :=
  match Invocation.ofArguments arguments with
  | .error e => pure (.refused e)
  | .ok .help => pure (.printed helpText)
  | .ok .version => pure (.printed versionText)
  | .ok (.run command) => do
    match ← command.run read with
    | .error failure => pure (.failed failure)
    | .ok text => pure (.printed text)

end

end Listing.CommandLine
