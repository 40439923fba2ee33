import YaccGrammar.CommandLine
import YaccGrammar.Fault
import YaccGrammar.FileSystem
import YaccGrammar.Log

/-!
# Scripts

What a program asks of the world, step by step, and how it goes on with each answer. A script can be
followed in a model of the world, as here in a file system, or in the world itself.
-/

namespace YaccGrammar

/-- How a run ends. -/
inductive Ending where
  /-- With an exit status. -/
  | status (code : Nat)
  /-- At something that cannot be done. What the process says of it is no line of the program. -/
  | fault (fault : Fault)

/-- The exit status of a process that ends like this. -/
def Ending.exitStatus : Ending → Nat
  | .status code => code
  | .fault _ => 101

/-- The steps of a program. -/
inductive Script where
  /-- Reads a file. -/
  | read (path : String) (next : Except IoFailure ByteArray → Script)
  /-- Logs what was done. -/
  | log (entries : List Log.Entry) (next : Script)
  /-- Writes lines to the standard error output. -/
  | tell (lines : List String) (next : Script)
  /-- Opens a destination, where a file loses what it held, and writes a text to it. -/
  | deliver (destination : Destination) (text : String) (next : Except IoFailure Unit → Script)
  /-- Ends the program. -/
  | finish (ending : Ending)

/-- The effects of a run. What is logged is none of them. -/
structure Effects where
  ending : Ending
  /-- What is written to the standard output. -/
  stdout : String
  /-- The lines that are written to the standard error output. -/
  stderr : List String
  /-- The files after the run. -/
  files : FileSystem

namespace Script

/-- Follows a script in a file system. A file that can be opened takes all that is written. -/
def run : Script → FileSystem → Effects
  | .read path next, fs => (next (fs.readFile path)).run fs
  | .log _ next, fs => next.run fs
  | .tell lines next, fs =>
    let effects := next.run fs
    { effects with stderr := lines ++ effects.stderr }
  | .deliver .stdout text next, fs =>
    let effects := (next (.ok ())).run fs
    { effects with stdout := text ++ effects.stdout }
  | .deliver (.file path) text next, fs =>
    match fs.target path with
    | .error failure => (next (.error failure)).run fs
    | .ok place => (next (.ok ())).run (fs.put place (.file text.toUTF8))
  | .finish ending, fs => ⟨ending, "", [], fs⟩

section

variable (path : String) (next : Except IoFailure ByteArray → Script) (after : Script)
  (answer : Except IoFailure Unit → Script) (fs : FileSystem)

/-- The program goes on with what is read. -/
@[simp] theorem run_read : (read path next).run fs = (next (fs.readFile path)).run fs := rfl

/-- What is logged has no effect. -/
@[simp] theorem run_log (entries : List Log.Entry) : (log entries after).run fs = after.run fs :=
  rfl

/-- What is told comes first in the standard error output. -/
@[simp] theorem run_tell (lines : List String) : (tell lines after).run fs =
    { after.run fs with stderr := lines ++ (after.run fs).stderr } := rfl

/-- The end has no effect. -/
@[simp] theorem run_finish (ending : Ending) : (finish ending).run fs = ⟨ending, "", [], fs⟩ := rfl

/-- What goes to the standard output comes first in it. -/
@[simp] theorem run_deliver_stdout (text : String) : (deliver .stdout text answer).run fs =
    { (answer (.ok ())).run fs with stdout := text ++ ((answer (.ok ())).run fs).stdout } := rfl

/-- A file that cannot be opened is not written. -/
theorem run_deliver_of_error {failure : IoFailure} (h : fs.target path = .error failure)
    (text : String) :
    (deliver (.file path) text answer).run fs = (answer (.error failure)).run fs := by
  rw [run, h]

/-- A file that is opened holds the text that is written to it. -/
theorem run_deliver_of_ok {place : List String} (h : fs.target path = .ok place) (text : String) :
    (deliver (.file path) text answer).run fs =
      (answer (.ok ())).run (fs.put place (.file text.toUTF8)) := by
  rw [run, h]

end

end Script

end YaccGrammar
