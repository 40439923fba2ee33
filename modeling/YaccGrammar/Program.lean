import YaccGrammar.Analysis.Basic
import YaccGrammar.Reading.Log
import YaccGrammar.Report.Basic
import YaccGrammar.Script

/-!
# The program

Reads a grammar file, reports what is wrong with it, analyses the grammar and writes the report.
The exit status is 1 if the grammar cannot be read to its end, 2 if the report cannot be written,
and otherwise 0, whatever is wrong with the grammar.
-/

namespace YaccGrammar.Program

/-- Reads a grammar from the content of its file, or tells of the failure to read that. What is
logged on the way comes first. -/
def parseContent (file : String) (content : Except IoFailure ByteArray) :
    Except Fault (List Log.Entry × Except (List Diagnostic) Reading.Document) :=
  match content.bind FileSystem.textOf with
  | .error failure => .ok ([], .error [⟨⟨file, 0⟩, .unreadable failure⟩])
  | .ok text => (Reading.readText file text).map fun run => (run.log, run.outcome)

/-- The line on a report that could not be written. -/
def unwritten (file : String) (failure : IoFailure) : String :=
  file ++ " => Could not write the report: " ++ failure.message

/-- The line that counts the problems, if there are any. -/
def countLines (file : String) (errors : List Diagnostic) : List String :=
  if errors.isEmpty then [] else [toString errors.length ++ " errors in " ++ file]

/-- Ends the program when the report has been written as far as it can be. -/
def conclude (command : CommandLine) (errors : List Diagnostic) : Option Fault → Script
  | some fault => .finish (.fault fault)
  | none => .tell (countLines command.file errors) <| .finish (.status 0)

/-- Tells what is wrong with a grammar that was read to its end, analyses it and writes the report.
-/
def publish (command : CommandLine) (document : Reading.Document) : Script :=
  let report := Report.write document.grammar.analyze command.file command.firstSets
  .tell (document.errors.map Diagnostic.render) <|
  .log (Log.upTo command.level document.grammar.analysisLog) <|
  .deliver command.destination report.text fun
    | .error failure => .tell [unwritten command.file failure] <| .finish (.status 2)
    | .ok () => conclude command document.errors report.fault

/-- The whole program. -/
def script (command : CommandLine) : Script :=
  .read command.file fun content =>
    match parseContent command.file content with
    | .error fault => .finish (.fault fault)
    | .ok (entries, outcome) =>
      .log (Log.upTo command.level entries) <|
      match outcome with
      | .error errors => .tell (errors.map Diagnostic.render) <| .finish (.status 1)
      | .ok document => publish command document

/-- Runs the program in a file system. -/
def run (fs : FileSystem) (command : CommandLine) : Effects := (script command).run fs

end YaccGrammar.Program
