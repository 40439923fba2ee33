import YaccGrammar.Letter.Ranges

/-!
# Classes of characters

Names in a grammar are told apart by their letters: a name without small letters is a terminal, a
name that begins with one is a nonterminal. This module sorts every character into one of five
classes.

## Main statements

- `isAlphabetic_of_isSmall`, `not_isCapital_of_isSmall`: a small letter is a letter and no
  capital.
- `isAlphanumeric_of_isAlphabetic`: letters are among the characters that words are made of.
-/

namespace YaccGrammar.Letter

/-- What a character counts as in a name. -/
inductive Class where
  /-- A capital letter. -/
  | capital
  /-- A small letter. -/
  | small
  /-- A letter of a script without case, or a letter in title case. -/
  | caseless
  /-- A digit or another numeral that is no letter. -/
  | numeral
  /-- Everything else. -/
  | other
  deriving DecidableEq

/-- Whether a code point lies in one of the ranges. -/
def within (ranges : List (Nat × Nat)) (n : Nat) : Bool :=
  ranges.any fun r => r.1 ≤ n && n ≤ r.2

/-- Class of a code point below U+0080. -/
def asciiClass (n : Nat) : Class :=
  if 0x41 ≤ n && n ≤ 0x5A then .capital
  else if 0x61 ≤ n && n ≤ 0x7A then .small
  else if 0x30 ≤ n && n ≤ 0x39 then .numeral
  else .other

/-- Class of a code point from U+0080 on. -/
def tableClass (n : Nat) : Class :=
  match paired.find? fun r => r.1 ≤ n && n ≤ r.2 with
  | some r => if (n - r.1) % 2 = 0 then .capital else .small
  | none =>
    if within capitals n then .capital
    else if within smalls n then .small
    else if within caseless n then .caseless
    else if within numerals n then .numeral
    else .other

/-- Class of a character. -/
def classOf (c : Char) : Class :=
  if c.toNat < 0x80 then asciiClass c.toNat else tableClass c.toNat

/-- Capital letters. -/
def isCapital (c : Char) : Bool := classOf c = .capital

/-- Small letters. -/
def isSmall (c : Char) : Bool := classOf c = .small

/-- Letters, with or without case. -/
def isAlphabetic (c : Char) : Bool :=
  match classOf c with
  | .capital | .small | .caseless => true
  | .numeral | .other => false

/-- Letters and numerals. -/
def isAlphanumeric (c : Char) : Bool := classOf c ≠ .other

/-- Characters that words are made of: letters, numerals and the underscore. -/
def isWordChar (c : Char) : Bool := isAlphanumeric c || c = '_'

/-- Small letters are letters. -/
theorem isAlphabetic_of_isSmall {c : Char} (h : isSmall c = true) : isAlphabetic c = true := by
  simp only [isSmall, decide_eq_true_eq] at h
  simp [isAlphabetic, h]

/-- No letter is small and capital. -/
theorem not_isCapital_of_isSmall {c : Char} (h : isSmall c = true) : isCapital c = false := by
  simp only [isSmall, decide_eq_true_eq] at h
  simp [isCapital, h]

/-- Letters are among the characters that words are made of. -/
theorem isAlphanumeric_of_isAlphabetic {c : Char} (h : isAlphabetic c = true) :
    isAlphanumeric c = true := by
  simp only [isAlphanumeric, ne_eq, decide_not, Bool.not_eq_true', decide_eq_false_iff_not]
  -- a character of no class is no letter
  intro other
  simp [isAlphabetic, other] at h

end YaccGrammar.Letter
