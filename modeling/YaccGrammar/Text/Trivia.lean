/-!
# Blanks and comments

What may stand between two tokens: blanks, comments from `//` to the end of the line, and comments
from `/*` to the first `*/` behind it.

`skip` passes over them and keeps two line numbers: the line it has reached, and the line on which
the last comment began. A comment that the text ends in is no mistake if it began with `//`.
-/

namespace YaccGrammar.Text

/-- Number of line breaks in a piece of text. -/
def newlines (s : List Char) : Nat := s.count '\n'

/-- The characters that separate tokens. -/
def isBlank (c : Char) : Bool :=
  c = ' ' || c = '\t' || c = '\x0b' || c = '\r' || c = '\n'

/-- Where a scan stands between two tokens. -/
inductive TriviaRegion where
  /-- Outside comments. -/
  | outside
  /-- In a comment that ends with the line. -/
  | lineComment
  /-- In a comment that ends with `*/`. -/
  | blockComment
  deriving DecidableEq

/-- Where skipping came to rest. -/
structure Gap where
  /-- Line of the first character that was not skipped. -/
  line : Nat
  /-- Line on which the last comment began; the line given, if there was none. -/
  commentLine : Nat
  /-- The text that was not skipped. -/
  rest : List Char
  /-- Whether every comment that was opened has ended. -/
  closed : Bool
  deriving DecidableEq

/-- Skips blanks and comments. A slash that opens no comment is not skipped. -/
def skip : TriviaRegion → Nat → Nat → List Char → Gap
  | .outside, line, mark, [] => ⟨line, mark, [], true⟩
  | .outside, line, _, '/' :: '/' :: s => skip .lineComment line line s
  | .outside, line, _, '/' :: '*' :: s => skip .blockComment line line s
  | .outside, line, mark, c :: s =>
    if c = '\n' then skip .outside (line + 1) mark s
    else if isBlank c then skip .outside line mark s
    else ⟨line, mark, c :: s, true⟩
  | .lineComment, line, mark, [] => ⟨line, mark, [], true⟩
  | .lineComment, line, mark, c :: s =>
    if c = '\n' then skip .outside (line + 1) mark s else skip .lineComment line mark s
  | .blockComment, line, mark, [] => ⟨line, mark, [], false⟩
  | .blockComment, line, mark, '*' :: '/' :: s => skip .outside line mark s
  | .blockComment, line, mark, c :: s =>
    skip .blockComment (if c = '\n' then line + 1 else line) mark s

end YaccGrammar.Text
