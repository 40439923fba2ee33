import YaccGrammar.Diagnostic.Problem
import YaccGrammar.Path

/-!
# Diagnostics

A diagnostic is a problem and the place in the grammar file where it shows.
-/

namespace YaccGrammar

/-- A line of a file. -/
structure Location where
  file : String
  /-- The line, counted from 1; 0 stands for the file as a whole. -/
  line : Nat
  deriving DecidableEq

/-- The file, and behind a colon the line if there is one. -/
def Location.render (l : Location) : String :=
  if l.line = 0 then l.file else l.file ++ ":" ++ toString l.line

/-- Equality, with files compared as paths. -/
def Location.same (a b : Location) : Bool := Path.same a.file b.file && a.line = b.line

/-- A problem at a place. -/
structure Diagnostic where
  location : Location
  problem : Problem
  deriving DecidableEq

namespace Diagnostic

/-- Whether the problem stops the reading. -/
def isFatal (d : Diagnostic) : Bool := d.problem.isFatal

/-- The place and the problem in one line. -/
def render (d : Diagnostic) : String := d.location.render ++ " => " ++ d.problem.message

/-- Equality of places and problems. -/
def same (a b : Diagnostic) : Bool := a.location.same b.location && a.problem.same b.problem

end Diagnostic

end YaccGrammar
