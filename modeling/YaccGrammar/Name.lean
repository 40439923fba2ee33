import YaccGrammar.Letter.Basic

/-!
# Names

The text of a symbol tells what the symbol is: a quoted literal or a name without small letters is
a terminal, anything else a nonterminal. Where a grammar file demands a nonterminal, the name has
moreover to be a word that begins with a small letter.

## Main statement

- `isTerminal_eq_false_of_isNonterminal`: what is accepted as a nonterminal is never taken for a
  terminal.
-/

namespace YaccGrammar.Name

open Letter

/-- Every letter is a capital; so are the letters of a text without any. -/
def allCapital (name : String) : Bool :=
  name.toList.all fun c => !isAlphabetic c || isCapital c

/-- At least two characters, the first and the last of which are the same quotation mark. -/
def isLiteral (name : String) : Bool :=
  match name.toList with
  | [] => false
  | c :: s => (c = '\'' || c = '"') && s.getLast? = some c

/-- A text that names a terminal. -/
def isTerminal (name : String) : Bool := isLiteral name || allCapital name

/-- A word that begins with a small letter. -/
def isNonterminal (name : String) : Bool :=
  name.toList.head?.any isSmall && name.toList.all isWordChar

/-- A text that may stand for a symbol on a right-hand side. -/
def isSymbol (text : String) : Bool :=
  text.toList.head?.any isWordChar || isLiteral text

/-- No name is that of a nonterminal and that of a terminal: it would begin with a small letter. -/
theorem isTerminal_eq_false_of_isNonterminal {name : String} (h : isNonterminal name = true) :
    isTerminal name = false := by
  simp only [isNonterminal, Bool.and_eq_true] at h
  obtain ⟨first, word⟩ := h
  simp only [isTerminal, isLiteral, allCapital, Bool.or_eq_false_iff]
  cases text : name.toList with
  | nil => simp [text] at first
  | cons c s =>
    simp only [text, List.head?_cons, Option.any_some] at first
    have letter := isAlphabetic_of_isSmall first
    have noCapital := not_isCapital_of_isSmall first
    refine ⟨?_, by simp [letter, noCapital]⟩
    -- a quote is no letter, so the name is no literal either
    have noQuote : c ≠ '\'' ∧ c ≠ '"' := by
      constructor <;> (rintro rfl; revert first; decide)
    simp [noQuote]

end YaccGrammar.Name
