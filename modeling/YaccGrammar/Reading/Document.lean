import YaccGrammar.Grammar.Undefined
import YaccGrammar.Reading.Step
import YaccGrammar.Token.Tokenizer

/-!
# Reading a document

A grammar file is read token by token up to its second `%%`; what follows is trailing code and is
taken as it stands. Every reading consumes at least one character, so a reading is given as many
steps as the text has characters, and one more to find the end.
-/

namespace YaccGrammar.Reading

/-- A text that has been read as far as it goes. -/
structure Run where
  /-- The tokens that were read, in order. -/
  tokens : List Token
  tokenizer : Tokenizer
  state : State
  /-- The construct that the text does not close, if reading stopped there. -/
  cut : Option Text.Unterminated

/-- Takes the trailing code, if it is due. -/
def captureTrailer (t : Tokenizer) (s : State) : Tokenizer × State :=
  if s.awaitsTrailer then (t.takeRest.2, s.setTrailer t.takeRest.1 t.line) else (t, s)

/-- Reads at most `n` pieces of a text. -/
def run : Nat → Tokenizer → State → Except Fault Run
  | 0, t, s => .ok ⟨[], t, s, none⟩
  | n + 1, t, s => do
    match ← t.next with
    | (.nothing, t) => .ok ⟨[], t, s, none⟩
    | (.cut what, t) => .ok ⟨[], t, s.report t.startLine (.unterminated what), some what⟩
    | (.token k, t) =>
      -- the trailing code is taken before another token can be cut from it
      let after := captureTrailer t (consume k s)
      let r ← run n after.1 after.2
      .ok { r with tokens := k :: r.tokens }

/-- Reads a text. -/
def readText (file text : String) : Except Fault Run :=
  run (text.toList.length + 1) (.ofString text) (.initial file)

/-- A grammar that was read to its end, and what is wrong with it. -/
structure Document where
  grammar : Grammar
  errors : List Diagnostic
  deriving DecidableEq

/-- The diagnostics of a run, with the one for a text that ends too early. -/
def Run.errors (r : Run) : List Diagnostic :=
  if r.cut.isSome || r.state.isComplete then r.state.errors
  else (r.state.report r.tokenizer.line (.unexpectedEnd r.state.phase)).errors

/-- What a run yields: a document, or the diagnostics of which the last one is fatal. -/
def Run.outcome (r : Run) : Except (List Diagnostic) Document :=
  if r.cut.isNone && r.state.isComplete then
    .ok ⟨r.state.grammar, r.state.errors ++ r.state.grammar.verify r.state.file⟩
  else .error r.errors

/-- Reads a grammar file with the given name and text. -/
def parse (file text : String) : Except Fault (Except (List Diagnostic) Document) :=
  (readText file text).map Run.outcome

end YaccGrammar.Reading
