import YaccGrammar.Diagnostic.Basic
import YaccGrammar.Grammar.Basic

/-!
# States of reading

What has been read of a grammar file so far: the phase, the declaration or rule that is being
read, the grammar, and the diagnostics.
-/

namespace YaccGrammar.Reading

/-- The state of reading a grammar file. -/
structure State where
  file : String
  phase : Phase := .preamble
  /-- Keyword of the declaration that is being read; without one, everything up to the next `%` is
  skipped. -/
  keyword : Option Keyword := none
  /-- Type tag of the declaration that is being read. -/
  tag : Option String := none
  /-- The alternative that is being read. -/
  openRule : Option RuleId := none
  /-- The precedence that the next symbol gets. -/
  nextPrecedence : Nat := 0
  grammar : Grammar := {}
  /-- The diagnostics, in the order in which they arose. -/
  errors : List Diagnostic := []
  deriving DecidableEq

namespace State

/-- Nothing has been read. -/
def initial (file : String) : State := { file }

/-- Records a problem. -/
def report (s : State) (line : Nat) (problem : Problem) : State :=
  { s with errors := s.errors ++ [⟨⟨s.file, line⟩, problem⟩] }

/-- Goes over to another phase. -/
def goto (s : State) (phase : Phase) : State := { s with phase }

/-- Changes the grammar. -/
def modifyGrammar (s : State) (f : Grammar → Grammar) : State := { s with grammar := f s.grammar }

/-- Whether the text behind the second `%%` is due. -/
def awaitsTrailer (s : State) : Bool :=
  s.phase = .trailer && s.grammar.trailingCode.isNone

/-- Keeps the text behind the second `%%`. -/
def setTrailer (s : State) (code : String) (line : Nat) : State :=
  s.modifyGrammar fun g => { g with trailingCode := some ⟨code, line⟩ }

/-- Whether the file may end here: behind the rules, of which there is at least one, or in the
trailing code. -/
def isComplete (s : State) : Bool :=
  match s.phase with
  | .ruleHead => !s.grammar.rules.isEmpty
  | .trailer => true
  | _ => false

end State

end YaccGrammar.Reading
