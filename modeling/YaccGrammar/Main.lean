import YaccGrammar.Program

/-!
# Entry point

Runs the program on the real file system: the script of `Program` is followed step by step. All
decisions are those of the script; this module reads, prints and writes.
-/

namespace YaccGrammar.Main

/-- How the program is called. -/
def usage : String :=
  "Usage: yaccgrammar [-v]... [--no-first-sets] FILE [OUTPUT | -o OUTPUT]"

/-- The text for arguments that yield no command line, and whether it is an error. -/
def refusalText : CommandLine.Refusal → String × Bool
  | .help => (usage, false)
  | .version => ("yaccgrammar 0.1.0", false)
  | .missingFile => ("error: FILE is missing\n" ++ usage, true)
  | .unknownArgument => ("error: unknown argument\n" ++ usage, true)
  | .conflict => ("error: conflicting arguments\n" ++ usage, true)
  | .invalidValue => ("error: missing or empty value\n" ++ usage, true)
  | .needlessValue => ("error: value for an option that takes none\n" ++ usage, true)

/-- The failure that an error of the system stands for. -/
def failureOf : IO.Error → IoFailure
  | .noFileOrDirectory _ _ _ => .notFound
  | .inappropriateType _ code details =>
    if code = 20 then .notDirectory
    else if code = 21 then .isDirectory
    else ⟨"Other", details⟩
  | .invalidArgument _ code details => if code = 36 then .tooLong else ⟨"Other", details⟩
  | .permissionDenied _ _ _ => ⟨"PermissionDenied", "Permission denied (os error 13)"⟩
  | error => ⟨"Other", toString error⟩

/-- Runs an action and catches its failure. -/
def attempt (action : IO α) : IO (Except IoFailure α) := do
  try
    return .ok (← action)
  catch error =>
    return .error (failureOf error)

/-- Opens a destination. -/
def openDestination : Destination → IO IO.FS.Stream
  | .stdout => IO.getStdout
  | .file path => do return .ofHandle (← IO.FS.Handle.mk path .write)

/-- Opens a destination and writes a text to it. -/
def deliver (destination : Destination) (text : String) : IO Unit := do
  let stream ← openDestination destination
  stream.putStr text
  stream.flush

/-- Ends the process. A fault has nobody else to tell of it. -/
def finish (ending : Ending) : IO UInt32 := do
  match ending with
  | .status _ => pure ()
  | .fault _ => IO.eprintln "internal error"
  return ending.exitStatus.toUInt32

/-- Follows a script. -/
def perform : Script → IO UInt32
  | .read path next => do
    let content ← attempt (IO.FS.readBinFile path)
    perform (next content)
  | .log entries next => do
    for entry in entries do
      IO.eprintln ("[" ++ entry.level.name ++ "] " ++ entry.message)
    perform next
  | .tell lines next => do
    for line in lines do
      IO.eprintln line
    perform next
  | .deliver destination text next => do
    let delivered ← attempt (deliver destination text)
    perform (next delivered)
  | .finish ending => finish ending

end YaccGrammar.Main

/-- Runs the program with the arguments it was called with. -/
def main (arguments : List String) : IO UInt32 := do
  match YaccGrammar.CommandLine.ofArguments arguments with
  | .ok command => YaccGrammar.Main.perform (YaccGrammar.Program.script command)
  | .error refusal =>
    match YaccGrammar.Main.refusalText refusal with
    | (text, true) =>
      IO.eprintln text
      return 2
    | (text, false) =>
      IO.println text
      return 0
