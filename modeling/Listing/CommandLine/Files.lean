/-!
# Files of a working directory

The program reads whole files of text. Here a working directory is a list of files with their paths
in it, which is all that reading needs; the paths decide which folders there are. A path is followed
name by name, and the first name that leads nowhere decides the error. What lies outside the
directory is not known to hold anything.
-/

namespace Listing.CommandLine

/-- Why a file cannot be read. -/
inductive ReadError where
  | notFound
  | accessDenied
  | notDirectory
  | isDirectory
  | nameTooLong
  | notText
  | other (description : String)
deriving DecidableEq, Repr

/-- The system's description of the error. -/
def ReadError.message : ReadError → String
  | notFound => "No such file or directory (os error 2)"
  | accessDenied => "Permission denied (os error 13)"
  | notDirectory => "Not a directory (os error 20)"
  | isDirectory => "Is a directory (os error 21)"
  | nameTooLong => "File name too long (os error 36)"
  | notText => "stream did not contain valid UTF-8"
  | other description => description

/-- The files of a directory: their paths in it, and their texts. -/
structure Files where
  entries : List (String × String)

/-- What a path has led to so far. -/
inductive Spot where
  /-- A folder, by its names from the directory on. -/
  | folder (names : List (List Char))
  | file (text : String)
  | outside
deriving DecidableEq, Repr

namespace Files

/-- The most bytes of a file's name. -/
def maxNameLength : Nat := 255

/-- The most bytes of a path. -/
def maxPathLength : Nat := 4095

/-- Whether a name stays where it is, such as the empty one between two slashes. -/
def isHere (name : List Char) : Bool := name == [] || name == ['.']

/-- The name of the folder above. -/
def above : List Char := ['.', '.']

/-- The names that a file's own path goes through. -/
def names (path : String) : List (List Char) := (path.toList.splitOn '/').filter (!isHere ·)

/-- What stands under a list of names, if anything does. -/
def spot? (files : Files) (place : List (List Char)) : Option Spot :=
  match files.entries.find? (names ·.1 == place) with
  | some file => some (.file file.2)
  | none =>
    if files.entries.any (place.isPrefixOf <| names ·.1) then some (.folder place) else none

/-- Follows one name of a path. -/
def follow (files : Files) (spot : Spot) (name : List Char) : Except ReadError Spot :=
  match spot with
  | .file _ => .error .notDirectory
  | .outside =>
    if isHere name ∨ name = above then .ok .outside
    else if maxNameLength < (String.ofList name).utf8ByteSize then .error .nameTooLong
    else .error .notFound
  | .folder place =>
    if isHere name then .ok spot
    else if name = above then .ok (if place.isEmpty then .outside else .folder place.dropLast)
    else if maxNameLength < (String.ofList name).utf8ByteSize then .error .nameTooLong
    else
      match files.spot? (place ++ [name]) with
      | some spot => .ok spot
      | none => .error .notFound

/-- Reads the file at a path. -/
def read (files : Files) (path : String) : Except ReadError String :=
  if path.isEmpty then .error .notFound
  else if maxPathLength < path.utf8ByteSize then .error .nameTooLong
  else do
    let start := if path.toList.head? = some '/' then Spot.outside else .folder []
    match ← (path.toList.splitOn '/').foldlM files.follow start with
    | .file text => .ok text
    | _ => .error .isDirectory

end Files

end Listing.CommandLine
