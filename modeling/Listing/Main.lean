import Listing.CommandLine.Run

/-!
# The program

Reads files from the disk and prints. The exit status is 0 for a printed text, 1 for a failure and 2
for arguments that cannot be used.
-/

namespace Listing.CommandLine

/-- The reason behind a number of a system error, which may come negated. -/
def ReadError.ofNumber? (number : UInt32) : Option ReadError :=
  match (if number < 0x80000000 then number else 0 - number).toNat with
  | 2 => some .notFound
  | 13 => some .accessDenied
  | 20 => some .notDirectory
  | 21 => some .isDirectory
  | 36 => some .nameTooLong
  | _ => none

/-- The reason behind an error of the file system. -/
def ReadError.ofIO (e : IO.Error) : ReadError :=
  let known :=
    match e with
    | .noFileOrDirectory _ number _ | .permissionDenied _ number _
    | .inappropriateType _ number _ | .invalidArgument _ number _ => ofNumber? number
    | _ => none
  known.getD (.other (toString e))

/-- Reads a file of text. -/
def readText (path : String) : IO (Except ReadError String) := do
  try
    let content ← IO.FS.readBinFile path
    match String.fromUTF8? content with
    | some text => return .ok text
    | none => return .error .notText
  catch e =>
    return .error (.ofIO e)

end Listing.CommandLine

open Listing.CommandLine

def main (arguments : List String) : IO UInt32 := do
  match ← run readText arguments with
  | .printed text =>
    IO.print text
    return 0
  | .failed failure =>
    IO.eprintln ("Error: " ++ failure.message)
    match failure.causeBlock? with
    | some cause => IO.eprintln ("\nCaused by:\n" ++ causeIndent ++ cause)
    | none => pure ()
    return 1
  | .refused error =>
    IO.eprintln ("error: " ++ error.message)
    return 2
