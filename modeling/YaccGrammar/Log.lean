/-!
# Log entries

What the program tells about its work, by level.
-/

namespace YaccGrammar.Log

/-- The levels, from the most to the least important. -/
inductive Level where
  | error
  | warn
  | info
  | debug
  | trace
  deriving DecidableEq

/-- Place of a level in the order of importance, 1 for the most important. -/
def Level.rank : Level → Nat
  | .error => 1
  | .warn => 2
  | .info => 3
  | .debug => 4
  | .trace => 5

/-- The name of a level. -/
def Level.name : Level → String
  | .error => "ERROR"
  | .warn => "WARN"
  | .info => "INFO"
  | .debug => "DEBUG"
  | .trace => "TRACE"

/-- One message. -/
structure Entry where
  level : Level
  message : String
  deriving DecidableEq

/-- The entries that are at least as important as `level`. -/
def upTo (level : Level) (entries : List Entry) : List Entry :=
  entries.filter fun e => e.level.rank ≤ level.rank

end YaccGrammar.Log
