import EpsilonAutomata.CommandLine.Commands

/-!
The program itself: it reads what a command needs, and prints what the command says.
-/
namespace EpsilonAutomata.CommandLine

/-- A file is named in what is refused on opening it, and not in what is refused on reading it. -/
def refusalOf : IO.Error → FileRefusal
  | .noFileOrDirectory .. => .notFound
  | .inappropriateType none .. => .isDirectory
  | .inappropriateType (some _) .. => .notDirectory
  | .permissionDenied .. => .denied
  | .invalidArgument _ 22 _ => .nulInName
  | .invalidArgument .. => .nameTooLong
  | error => .other (toString error)

def loadSource : Source → IO (Except Error Editor)
  | .file path => do
    let bytes ← (IO.FS.readBinFile path).toBaseIO
    let text := match bytes with
      | .ok bytes => Files.decode bytes
      | .error error => .error (refusalOf error)
    return match text with
      | .ok text => Editor.read text
      | .error refusal => .error (.file (.unreadable path refusal))
  | .catalogue key => return pick key
  | .input => do
    let stdin ← IO.getStdin
    if ← stdin.isTty then return Source.load .empty none .input
    return Source.load .empty (← stdin.readBinToEnd) .input

def outcomeOf (args : List String) : IO Outcome := do
  match parse args with
  | .error fault => return .misuse fault
  | .ok command =>
    match command.source? with
    | none => return .ofResult (command.lines (Source.load .empty none))
    | some source =>
      let loaded ← loadSource source
      return .ofResult (command.lines fun _ => loaded)

end EpsilonAutomata.CommandLine

open EpsilonAutomata.CommandLine in
def main (args : List String) : IO UInt32 := do
  let outcome ← outcomeOf args
  IO.print outcome.output
  unless outcome.errors.isEmpty do IO.eprintln outcome.errors
  return outcome.exitCode.toUInt32
