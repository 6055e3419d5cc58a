/-!
# Command-line options

Options come as `--name value`, `--name=value`, `-n value`, `-nvalue` or `-n=value`; options without
a value may be given together behind one hyphen. Names are never abbreviated. A separate value must
not start with a hyphen, unless it is a hyphen alone. A lone `--` ends the options. Reading stops at
the first fault and keeps what came before it, since an option in front of the fault may make it
irrelevant.
-/

namespace Listing.CommandLine

/-- Why the arguments of a command cannot be used. -/
inductive UsageError where
  | unexpectedArgument (argument : String)
  | missingValue (option : String)
  | unexpectedValue (option value : String)
  | invalidValue (option value : String)
  | repeatedOption (option : String)
  | conflictingOptions (option other : String)
  | missingOption (option : String)
  | missingCommand
deriving DecidableEq, Repr

def UsageError.message : UsageError → String
  | unexpectedArgument argument => "unexpected argument '" ++ argument ++ "' found"
  | missingValue option => "a value is required for '--" ++ option ++ "' but none was supplied"
  | unexpectedValue option value =>
    "unexpected value '" ++ value ++ "' for '--" ++ option ++ "' found; no more were expected"
  | invalidValue option value => "invalid value '" ++ value ++ "' for '--" ++ option ++ "'"
  | repeatedOption option => "the argument '--" ++ option ++ "' cannot be used multiple times"
  | conflictingOptions option other =>
    "the argument '--" ++ option ++ "' cannot be used with '--" ++ other ++ "'"
  | missingOption option => "the following required argument was not provided: --" ++ option
  | missingCommand => "a subcommand is required but one was not provided"

/-- What an argument looks like. -/
inductive Argument where
  /-- `--` -/
  | terminator
  /-- `--name` or `--name=value` -/
  | long (name : String) (value : Option String)
  /-- `-abc` -/
  | cluster (letters : List Char)
  /-- Anything else. -/
  | plain (s : String)
deriving DecidableEq, Repr

namespace Argument

def of (s : String) : Argument :=
  match s.toList with
  | ['-', '-'] => terminator
  | '-' :: '-' :: cs =>
    let name := String.ofList (cs.takeWhile (· != '='))
    match cs.dropWhile (· != '=') with
    | [] => long name none
    | _ :: value => long name (some (String.ofList value))
  | '-' :: c :: cs => cluster (c :: cs)
  | _ => plain s

end Argument

/-- An option that a command knows. -/
structure OptionForm (α : Type) where
  option : α
  name : String
  letter : Option Char
  takesValue : Bool

/-- The options that have been read, with their values, and the fault that ended the reading, if
any. -/
structure Reading (α : Type) where
  given : List (α × String)
  fault : Option UsageError

namespace Reading

variable {α : Type}

def stop (fault : UsageError) : Reading α := ⟨[], some fault⟩

def cons (option : α) (value : String) (r : Reading α) : Reading α :=
  { r with given := (option, value) :: r.given }

end Reading

/-- How a group of letters behind one hyphen ends. -/
inductive ClusterEnd (α : Type) where
  | complete
  /-- The last option wants its value from the next argument. -/
  | wantsValue (form : OptionForm α)
  | unknown (letter : Char)

variable {α : Type}

/-- Reads the letters behind a hyphen. What follows an option with a value is its value. -/
def readCluster (forms : List (OptionForm α)) : List Char → List (α × String) × ClusterEnd α
  | [] => ([], .complete)
  | c :: cs =>
    match forms.find? (·.letter == some c) with
    | none => ([], .unknown c)
    | some form =>
      if form.takesValue then
        match cs with
        | [] => ([], .wantsValue form)
        | '=' :: value => ([(form.option, String.ofList value)], .complete)
        | value => ([(form.option, String.ofList value)], .complete)
      else
        let (given, ending) := readCluster forms cs
        ((form.option, "") :: given, ending)

/-- Reads arguments that have to be options; an option without a value is given the empty text. -/
def readOptions (forms : List (OptionForm α)) : List String → Reading α
  | [] => ⟨[], none⟩
  | arg :: args =>
    let withNextValue (form : OptionForm α) : Reading α :=
      match args with
      | [] => .stop (.missingValue form.name)
      | value :: rest =>
        match Argument.of value with
        | .plain value => (readOptions forms rest).cons form.option value
        | _ => .stop (.missingValue form.name)
    match Argument.of arg with
    | .terminator =>
      match args with
      | [] => ⟨[], none⟩
      | next :: _ => .stop (.unexpectedArgument next)
    | .plain s => .stop (.unexpectedArgument s)
    | .long name value =>
      match forms.find? (·.name == name), value with
      | none, _ => .stop (.unexpectedArgument arg)
      | some form, none =>
        if form.takesValue then withNextValue form
        else (readOptions forms args).cons form.option ""
      | some form, some value =>
        if form.takesValue then (readOptions forms args).cons form.option value
        else .stop (.unexpectedValue name value)
    | .cluster letters =>
      let (given, ending) := readCluster forms letters
      let rest : Reading α :=
        match ending with
        | .complete => readOptions forms args
        | .wantsValue form => withNextValue form
        | .unknown letter => .stop (.unexpectedArgument (String.ofList ['-', letter]))
      { rest with given := given ++ rest.given }

end Listing.CommandLine
