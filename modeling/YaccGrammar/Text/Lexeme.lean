import YaccGrammar.Letter.Basic

/-!
# Shapes of tokens

The four kinds of token that have a closing mark or a longest form: quoted literals, type tags,
code blocks and words. Each scanner gets the text behind the first character and splits it into
the remainder of the token and what follows the token. A construct that the text does not close is
reported by kind.

In code the braces are counted; braces inside quotes and comments are not.

## Main statement

- `lexeme_splits`: the text of a token and what follows it make up the text that was scanned.
-/

namespace YaccGrammar.Text

open Letter

/-- The constructs that have a closing mark, named when the text ends without it. -/
inductive Unterminated where
  /-- A comment that began with `/*`. -/
  | comment
  /-- A quoted literal. -/
  | literal
  /-- A type tag. -/
  | tag
  /-- A code block. -/
  | code
  deriving DecidableEq

/-- A token's text and what follows it. -/
abbrev Scan := Except Unterminated (List Char × List Char)

/-- Puts one more character in front of the text that a scan took. -/
def Scan.cons (c : Char) : Scan → Scan
  | .ok (text, rest) => .ok (c :: text, rest)
  | .error e => .error e

/-- The two quotation marks. -/
def isQuote (c : Char) : Bool := c = '\'' || c = '"'

/-- A literal up to its closing quote; a backslash takes the next character with it. -/
def quoted (q : Char) : List Char → Scan
  | [] => .error .literal
  | '\\' :: c :: s => .cons '\\' (.cons c (quoted q s))
  | c :: s => if c = q then .ok ([c], s) else .cons c (quoted q s)

/-- A type tag up to `>`. -/
def tag : List Char → Scan
  | [] => .error .tag
  | c :: s => if c = '>' then .ok ([c], s) else .cons c (tag s)

/-- A word, as long as it goes. -/
def word (s : List Char) : List Char × List Char :=
  (s.takeWhile isWordChar, s.dropWhile isWordChar)

/-- Where a scan stands inside code. -/
inductive CodeRegion where
  /-- Outside quotes and comments. -/
  | plain
  /-- In a comment that ends with the line. -/
  | lineComment
  /-- In a comment that ends with `*/`. -/
  | blockComment
  /-- In a literal that ends with the given quote. -/
  | literal (q : Char)
  deriving DecidableEq

/-- A code block up to the brace that closes it, behind its opening brace and `depth` further ones
that are still open. -/
def code : CodeRegion → (depth : Nat) → List Char → Scan
  | .plain, _, [] => .error .code
  | .plain, d, '/' :: '/' :: s => .cons '/' (.cons '/' (code .lineComment d s))
  | .plain, d, '/' :: '*' :: s => .cons '/' (.cons '*' (code .blockComment d s))
  | .plain, d, c :: s =>
    if c = '{' then .cons c (code .plain (d + 1) s)
    else if c = '}' then
      match d with
      | 0 => .ok ([c], s)
      | d + 1 => .cons c (code .plain d s)
    else if isQuote c then .cons c (code (.literal c) d s)
    else .cons c (code .plain d s)
  | .lineComment, _, [] => .error .code
  | .lineComment, d, c :: s =>
    .cons c (if c = '\n' then code .plain d s else code .lineComment d s)
  | .blockComment, _, [] => .error .comment
  | .blockComment, d, '*' :: '/' :: s => .cons '*' (.cons '/' (code .plain d s))
  | .blockComment, d, c :: s => .cons c (code .blockComment d s)
  | .literal _, _, [] => .error .code
  | .literal q, d, '\\' :: c :: s => .cons '\\' (.cons c (code (.literal q) d s))
  | .literal q, d, c :: s =>
    .cons c (if c = q then code .plain d s else code (.literal q) d s)

/-- The token that begins with `c`: its whole text, and what follows it. -/
def lexeme (c : Char) (s : List Char) : Scan :=
  if isQuote c then .cons c (quoted c s)
  else if c = '<' then .cons c (tag s)
  else if c = '{' then .cons c (code .plain 0 s)
  else if isWordChar c then .cons c (.ok (word s))
  else .ok ([c], s)

/-- Whether the end of the token that begins with `c` shows only in the character behind it. -/
def needsLookahead (c : Char) : Bool := c = '/' || isWordChar c

/-! ## Nothing is lost -/

/-- A scan takes a part of `s` from its beginning and leaves what follows it. -/
def Scan.Splits (s : List Char) : Scan → Prop
  | .ok (text, rest) => text ++ rest = s
  | .error _ => True

/-- A character in front of what a scan takes is taken as well. -/
theorem Scan.Splits.cons {s : List Char} {r : Scan} (c : Char) (h : r.Splits s) :
    (Scan.cons c r).Splits (c :: s) := by
  obtain e | ⟨text, rest⟩ := r
  · trivial
  · exact congrArg (c :: ·) h

/-- A literal is a part of the text from its beginning. -/
theorem quoted_splits (q : Char) (s : List Char) : (quoted q s).Splits s := by
  fun_induction quoted q s with
  | case1 => trivial
  | case2 c s ih => exact (ih.cons c).cons _
  | case3 s => rfl
  | case4 c s _ _ ih => exact ih.cons c

/-- A type tag is a part of the text from its beginning. -/
theorem tag_splits (s : List Char) : (tag s).Splits s := by
  fun_induction tag s with
  | case1 => trivial
  | case2 s => rfl
  | case3 c s _ ih => exact ih.cons c

/-- Code is a part of the text from its beginning, in whatever region the scan stands. -/
theorem code_splits (r : CodeRegion) (d : Nat) (s : List Char) : (code r d s).Splits s := by
  fun_induction code r d s
  -- the text ends in the code, so nothing was taken
  case case1 | case9 | case11 | case14 => trivial
  -- two characters are taken at once: the marks of comments, and escapes
  case case2 ih | case3 ih | case12 ih | case15 ih => exact (ih.cons _).cons _
  case case4 ih | case6 ih | case7 ih | case8 ih | case13 ih => exact ih.cons _
  case case5 => rfl
  -- a line comment goes on up to the line break
  case case10 ih₁ ih₂ =>
    refine Scan.Splits.cons _ ?_
    split
    · exact ih₁
    · exact ih₂
  -- a literal goes on up to its quote
  case case16 ih₁ ih₂ =>
    refine Scan.Splits.cons _ ?_
    split
    · exact ih₁
    · exact ih₂

/-- Every token is a part of the text from its beginning. -/
theorem lexeme_splits (c : Char) (s : List Char) : (lexeme c s).Splits (c :: s) := by
  unfold lexeme
  split
  · exact (quoted_splits c s).cons c
  split
  · exact (tag_splits s).cons c
  split
  · exact (code_splits .plain 0 s).cons c
  split
  · exact congrArg (c :: ·) List.takeWhile_append_dropWhile
  · rfl

end YaccGrammar.Text
