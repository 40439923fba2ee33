import YaccGrammar.Log
import YaccGrammar.Path

/-!
# The command line

`FILE [OUTPUT] [-o OUTPUT] [-v]... [--no-first-sets]`, in any order. Short options may be grouped,
and an option takes its value from the rest of its group, from behind `=`, or from the next
argument. After `--` every argument is a file name.

Arguments are read from left to right. A file name, and a value from an argument of its own, is
checked only when the next argument has been recognised; so of two mistakes an unknown argument
wins over the value in front of it.
-/

namespace YaccGrammar

/-- Where the report goes. -/
inductive Destination where
  | stdout
  | file (path : String)
  deriving DecidableEq

/-- What the arguments ask for. -/
structure CommandLine where
  /-- The grammar file. -/
  file : String
  destination : Destination
  /-- The least important level that is logged. -/
  level : Log.Level
  /-- Whether the report includes the first-sets. -/
  firstSets : Bool
  deriving DecidableEq

namespace CommandLine

/-- Why the arguments yield no command line. -/
inductive Refusal where
  /-- There is no grammar file. -/
  | missingFile
  /-- An option that does not exist, or a third file name. -/
  | unknownArgument
  /-- The report is directed to two places, or an option is given twice. -/
  | conflict
  /-- An option without its value, or an empty file name. -/
  | invalidValue
  /-- A value for an option that takes none. -/
  | needlessValue
  /-- Help was asked for. -/
  | help
  /-- The version was asked for. -/
  | version
  deriving DecidableEq

/-- A value that has been read and not been checked. -/
inductive Pending where
  | file (path : String)
  | output (path : String)
  /-- The value of `-o`, which is still missing at first. -/
  | outputOption (path : Option String)
  deriving DecidableEq

/-- What has been read of the arguments. -/
structure Scan where
  file : Option String := none
  /-- The destination given as second file name. -/
  output : Option String := none
  /-- The destination given with `-o`. -/
  outputOption : Option String := none
  verbosity : Nat := 0
  firstSets : Bool := true
  pending : Option Pending := none
  /-- Number of file names so far. -/
  names : Nat := 0
  /-- Whether `--` has been read. -/
  optionsEnded : Bool := false
  deriving DecidableEq

/-- Sets the destination to the value of `-o`. -/
def setOutputOption (path : String) (s : Scan) : Except Refusal Scan :=
  if s.outputOption.isSome then .error .conflict
  else if path = "" then .error .invalidValue
  else .ok { s with outputOption := some path }

/-- Checks the pending value. -/
def settle (s : Scan) : Except Refusal Scan :=
  let rest := { s with pending := none }
  match s.pending with
  | none => .ok rest
  | some (.file path) =>
    if path = "" then .error .invalidValue else .ok { rest with file := some path }
  | some (.output path) =>
    if path = "" then .error .invalidValue else .ok { rest with output := some path }
  | some (.outputOption none) => .error .invalidValue
  | some (.outputOption (some path)) => setOutputOption path rest

/-- Reads a file name. -/
def readName (path : String) (s : Scan) : Except Refusal Scan :=
  match s.names with
  | 0 => do return { ← settle s with pending := some (.file path), names := 1 }
  | 1 => do return { ← settle s with pending := some (.output path), names := 2 }
  | _ => .error .unknownArgument

/-- Reads `-v`. -/
def readVerbose (s : Scan) : Except Refusal Scan := do
  let s ← settle s
  return { s with verbosity := s.verbosity + 1 }

/-- Reads `--no-first-sets`. -/
def readNoFirstSets (s : Scan) : Except Refusal Scan := do
  let s ← settle s
  if s.firstSets then return { s with firstSets := false } else throw .conflict

/-- Reads `-o` with the value that is attached to it, if any. -/
def readOutputOption (value : Option String) (s : Scan) : Except Refusal Scan := do
  let s ← settle s
  match value with
  | some path => setOutputOption path s
  | none => return { s with pending := some (.outputOption none) }

/-- Reads an option that ends the program. -/
def readFinal (what : Refusal) (s : Scan) : Except Refusal Scan := do
  let _ ← settle s
  throw what

/-- Reads a group of short options. -/
def readShort : List Char → Scan → Except Refusal Scan
  | [], s => .ok s
  | c :: group, s =>
    if c = 'v' then do readShort group (← readVerbose s)
    else if c = 'h' then readFinal .help s
    else if c = 'V' then readFinal .version s
    else if c = 'o' then
      match group with
      | [] => readOutputOption none s
      | '=' :: value => readOutputOption (some (String.ofList value)) s
      | value => readOutputOption (some (String.ofList value)) s
    else .error .unknownArgument

/-- Reads an option that takes no value. -/
def readFlag (read : Scan → Except Refusal Scan) (value : Option String) (s : Scan) :
    Except Refusal Scan :=
  if value.isSome then .error .needlessValue else read s

/-- Reads a long option with the value behind its `=`, if any. -/
def readLong (name : String) (value : Option String) (s : Scan) : Except Refusal Scan :=
  if name = "output" then readOutputOption value s
  else if name = "verbose" then readFlag readVerbose value s
  else if name = "no-first-sets" then readFlag readNoFirstSets value s
  else if name = "help" then readFlag (readFinal .help) value s
  else if name = "version" then readFlag (readFinal .version) value s
  else .error .unknownArgument

/-- Divides a long option at its first `=`. -/
def divideLong (option : List Char) : String × Option String :=
  let name := String.ofList (option.takeWhile (· ≠ '='))
  match option.dropWhile (· ≠ '=') with
  | _ :: value => (name, some (String.ofList value))
  | [] => (name, none)

/-- Reads one argument. -/
def readArgument (s : Scan) (argument : String) : Except Refusal Scan :=
  if s.optionsEnded then readName argument s
  else
    match argument.toList with
    | ['-', '-'] => .ok { s with optionsEnded := true }
    | '-' :: '-' :: option => readLong (divideLong option).1 (divideLong option).2 s
    | '-' :: c :: group => readShort (c :: group) s
    | _ =>
      if s.pending = some (.outputOption none) then
        .ok { s with pending := some (.outputOption (some argument)) }
      else readName argument s

/-- The level that a number of `-v` asks for. -/
def levelOf : (verbosity : Nat) → Log.Level
  | 0 => .warn
  | 1 => .info
  | 2 => .debug
  | _ => .trace

/-- The report that goes with a grammar file: in the working directory, named for the file. -/
def defaultOutput (file : String) : String := Path.siblingOfStem file "out"

/-- Where the report goes; a dash stands for the standard output. -/
def destinationOf (file : String) (output : Option String) : Destination :=
  match output with
  | some path => if path = "-" then .stdout else .file path
  | none => .file (defaultOutput file)

/-- The command line that has been read. -/
def ofScan (s : Scan) : Except Refusal CommandLine := do
  let s ← settle s
  if s.output.isSome && s.outputOption.isSome then throw .conflict
  match s.file with
  | none => throw .missingFile
  | some file =>
    return {
      file
      destination := destinationOf file (s.output <|> s.outputOption)
      level := levelOf s.verbosity
      firstSets := s.firstSets }

/-- Reads the arguments of the program. -/
def ofArguments (arguments : List String) : Except Refusal CommandLine := do
  ofScan (← arguments.foldlM readArgument {})

end CommandLine

end YaccGrammar
