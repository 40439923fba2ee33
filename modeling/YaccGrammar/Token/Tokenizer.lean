import YaccGrammar.Text.Reader
import YaccGrammar.Text.Trivia
import YaccGrammar.Text.Lexeme
import YaccGrammar.Token.Basic

/-!
# Tokenizers

A tokenizer splits a text into tokens and counts lines. It reads one character beyond a word and
beyond a single slash, and hands that character back to its reader. After a construct that the
text does not close it has read everything, and finds nothing more.

## Main statement

- `next_isOk`: the reader never holds two characters that were handed back.
-/

namespace YaccGrammar

open Text

/-- A text that is being split into tokens. -/
structure Tokenizer where
  source : Reader
  /-- Line of the next unread character. -/
  line : Nat := 1
  /-- Line of the last token, comment or failed construct; 0 before the first. -/
  startLine : Nat := 0
  deriving DecidableEq

namespace Tokenizer

/-- What the next piece of the text turned out to be. -/
inductive Found where
  | token (t : Token)
  | nothing
  | cut (what : Unterminated)
  deriving DecidableEq

/-- A tokenizer at the start of a text. -/
def ofString (text : String) : Tokenizer := { source := .ofString text }

/-- A reader of `s` whose first character has been looked at and is handed back. -/
def handBack : List Char → Except Fault Reader
  | [] => .ok ⟨none, []⟩
  | c :: s => Reader.pushBack c ⟨none, s⟩

/-- Reads the next token. -/
def next (t : Tokenizer) : Except Fault (Found × Tokenizer) :=
  let gap := skip .outside t.line t.startLine t.source.unread
  match gap.closed, gap.rest with
  | false, _ => .ok (.cut .comment, ⟨⟨none, []⟩, gap.line, gap.commentLine⟩)
  | true, [] => .ok (.nothing, ⟨⟨none, []⟩, gap.line, gap.commentLine⟩)
  | true, c :: s =>
    match lexeme c s with
    -- whatever is not closed reaches to the end of the text
    | .error what => .ok (.cut what, ⟨⟨none, []⟩, gap.line + newlines s, gap.line⟩)
    | .ok (text, rest) => do
      let source ← if needsLookahead c then handBack rest else .ok ⟨none, rest⟩
      .ok (.token ⟨String.ofList text, gap.line⟩, ⟨source, gap.line + newlines text, gap.line⟩)

/-- There is room for the one character that was looked at. -/
theorem handBack_eq (s : List Char) : handBack s = .ok ⟨s.head?, s.tail⟩ := by
  cases s <;> rfl

/-- The reader never holds two characters that were handed back. -/
theorem next_isOk (t : Tokenizer) : ∃ found, t.next = .ok found := by
  unfold next
  dsimp only
  split
  · exact ⟨_, rfl⟩
  · exact ⟨_, rfl⟩
  · split
    · exact ⟨_, rfl⟩
    · -- a token: the character behind it is handed back to an empty reader
      rw [handBack_eq]
      split <;> exact ⟨_, rfl⟩

/-- Takes everything that is left, as it stands. -/
def takeRest (t : Tokenizer) : String × Tokenizer :=
  let s := t.source.unread
  (String.ofList s, { t with source := ⟨none, []⟩, line := t.line + newlines s })

end Tokenizer

end YaccGrammar
