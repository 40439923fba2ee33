/-!
# Tokens

A token is a piece of the grammar file and the line on which it starts. Whether a token is a name,
a code block or a mark is read off its text.
-/

namespace YaccGrammar

/-- One lexical unit. -/
structure Token where
  text : String := ""
  /-- Line on which the token starts; 0 for a token that was not read from a file. -/
  line : Nat := 0
  deriving DecidableEq

namespace Token

/-- Appends a character to the text. -/
def push (t : Token) (c : Char) : Token := { t with text := t.text.push c }

/-- Empties the text and keeps the line. -/
def clear (t : Token) : Token := { t with text := "" }

/-- The token that consists of the one character `c`. -/
def is (t : Token) (c : Char) : Bool := t.text.toList = [c]

/-- The first character, NUL if there is none. -/
def first (t : Token) : Char := t.text.toList.head?.getD '\x00'

/-- The last character, NUL if there is none. -/
def last (t : Token) : Char := t.text.toList.getLast?.getD '\x00'

/-- Number of characters. -/
def size (t : Token) : Nat := t.text.toList.length

/-- The text without its first `front` and last `back` characters. -/
def trimmed (t : Token) (front back : Nat) : String :=
  String.ofList ((t.text.toList.drop front).take (t.size - (front + back)))

/-- A code block that was closed by `%}`, as the block at the top of a grammar file is. -/
def isImportBlock (t : Token) : Bool :=
  t.first = '{' && ['%', '}'].isSuffixOf t.text.toList && 3 ≤ t.size

/-- A code block. -/
def isBlock (t : Token) : Bool := t.first = '{' && t.last = '}'

end Token

end YaccGrammar
