/-
The program: reads its arguments and the problem file, runs the command, and
prints what it answers.  The status is `1` if the command fails and `2` if the
arguments are at fault.
-/
import Pinpoint.CommandLine.Run

namespace Pinpoint.CommandLine

/-- The number of a failure, which may be reported with its sign turned. -/
def failureNumber (code : UInt32) : Nat := (min code (0 - code)).toNat

/-- Words with the number of a failure. -/
def numbered (words : String) (code : UInt32) : String :=
  words ++ " (os error " ++ toString (failureNumber code) ++ ")"

/-- The system's words for a failure to read a file, with its number where
there is one. -/
def describeReadError (e : IO.Error) : String :=
  match e with
  | .noFileOrDirectory _ code _ => numbered "No such file or directory" code
  | .permissionDenied _ code _ => numbered "Permission denied" code
  | .inappropriateType _ code _ =>
    numbered (if failureNumber code = 20 then "Not a directory" else "Is a directory") code
  | e => toString e

/-- The text of a file, or why it cannot be read. -/
def readContents (file : String) : IO (Except String String) := do
  match ← (IO.FS.readBinFile file).toBaseIO with
  | .error e => return .error (describeReadError e)
  | .ok bytes =>
    match String.fromUTF8? bytes with
    | some text => return .ok text
    | none => return .error "stream did not contain valid UTF-8"

/-- Answers a request, and gives the status to end with. -/
def answer : Request → IO UInt32
  | .version => do
    IO.println versionText
    return 0
  | .help topic => do
    IO.print topic.text
    return 0
  | .run command => do
    match command.run ampleFuel (← readContents command.target.file) with
    | none => return 1
    | some (.ok text) =>
      IO.print text
      return 0
    | some (.error failure) =>
      IO.eprint failure.render
      return 1

end Pinpoint.CommandLine

/-- The program. -/
def main (args : List String) : IO UInt32 := do
  match Pinpoint.CommandLine.Request.ofArguments args with
  | .ok request => Pinpoint.CommandLine.answer request
  | .error fault =>
    IO.eprintln ("error: " ++ fault.message)
    return 2
