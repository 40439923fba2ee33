import YaccGrammar.Keyword
import YaccGrammar.Name
import YaccGrammar.Token.Basic

/-!
# Texts of tokens

A token that is a mark is no other mark, no code block, no tag and no symbol. A token that is
written between marks is told by what stands between them.
-/

namespace YaccGrammar.Token

variable {t : Token} {c d : Char}

/-- A token that is a character begins with it. -/
theorem first_eq_of_is (h : t.is c = true) : t.first = c := by
  rw [is, decide_eq_true_iff] at h
  rw [first, h]
  rfl

/-- No token is two characters. -/
theorem is_eq_false_of_is (h : t.is c = true) (hne : c ≠ d) : t.is d = false := by
  rw [is, decide_eq_true_iff] at h
  rw [is, h, decide_eq_false_iff_not, List.cons.injEq]
  exact fun heq => hne heq.1

theorem is_eq_false_of_first (h : t.first ≠ c) : t.is c = false := by
  rw [Bool.eq_false_iff]
  exact fun his => h (first_eq_of_is his)

/-- A token of one character that is no small letter is no nonterminal. -/
theorem isNonterminal_eq_false_of_is (h : t.is c = true) (hc : Letter.isSmall c = false) :
    Name.isNonterminal t.text = false := by
  rw [is, decide_eq_true_iff] at h
  simp [Name.isNonterminal, h, hc]

/-- A nonterminal begins with a small letter, so its name is no mark and no code block. -/
theorem first_ne_of_isNonterminal (h : Name.isNonterminal t.text = true)
    (hc : Letter.isSmall c = false) : t.first ≠ c := by
  rintro rfl
  unfold first at hc
  cases htext : t.text.toList with
  | nil => simp [Name.isNonterminal, htext] at h
  | cons d s =>
    rw [htext] at hc
    simp only [List.head?_cons, Option.getD_some] at hc
    simp [Name.isNonterminal, htext, hc] at h

/-- A mark is no symbol. -/
theorem isSymbol_eq_false_of_is (h : t.is c = true) (hc : Letter.isWordChar c = false) :
    Name.isSymbol t.text = false := by
  rw [is, decide_eq_true_iff] at h
  simp [Name.isSymbol, Name.isLiteral, h, hc]

/-- A symbol begins with a character of a word or with a quotation mark. -/
theorem first_ne_of_isSymbol (h : Name.isSymbol t.text = true) (hword : Letter.isWordChar c = false)
    (hquote : c ≠ '\'' ∧ c ≠ '"') : t.first ≠ c := by
  rintro rfl
  unfold first at hword hquote
  cases htext : t.text.toList with
  | nil => simp [Name.isSymbol, Name.isLiteral, htext] at h
  | cons d s =>
    rw [htext] at hword hquote
    simp only [List.head?_cons, Option.getD_some] at hword hquote
    simp [Name.isSymbol, Name.isLiteral, htext, hword, hquote] at h

/-- A keyword is no single character. -/
theorem is_eq_false_of_keyword {k : Keyword} (h : Keyword.ofWord? t.text = some k) :
    t.is c = false := by
  have hname : k.name.toList = t.text.toList.map Char.toLower := by
    simpa using List.find?_some h
  have hlong : 1 < k.name.toList.length := by cases k <;> decide
  rw [hname, List.length_map] at hlong
  rw [is, decide_eq_false_iff_not]
  intro hsingle
  rw [hsingle] at hlong
  exact Nat.lt_irrefl 1 hlong

theorem is_of_text (h : t.text.toList = [c]) : t.is c = true := decide_eq_true h

/-- A token that is a character has no other text. -/
theorem text_eq_of_is (h : t.is c = true) : t.text = String.ofList [c] := by
  rw [is, decide_eq_true_iff] at h
  rw [← h, String.ofList_toList]

/-- The mark that begins declarations, separates sections and announces a precedence. -/
theorem is_percent (h : t.text = "%") : t.is '%' = true := is_of_text (by rw [h]; rfl)

theorem is_percent_iff : t.is '%' = true ↔ t.text = "%" := ⟨text_eq_of_is, is_percent⟩

theorem first_of_text {s : List Char} (h : t.text.toList = c :: s) : t.first = c := by
  rw [first, h]
  rfl

/-- A first character that is not the default stands in front of the others. -/
theorem exists_text_eq_of_first (h : t.first = c) (hc : c ≠ '\x00') :
    ∃ s, t.text.toList = c :: s := by
  cases htext : t.text.toList with
  | nil =>
    rw [first, htext] at h
    exact absurd h.symm hc
  | cons d s => exact ⟨s, by rw [← first_of_text htext, h]⟩

/-- What is trimmed is what stands between the marks. -/
theorem trimmed_eq {a s b : List Char} (h : t.text.toList = a ++ s ++ b) :
    t.trimmed a.length b.length = String.ofList s := by
  have hlength : t.size - (a.length + b.length) = s.length := by
    rw [size, h, List.length_append, List.length_append]
    omega
  rw [trimmed, hlength, h, List.append_assoc, List.drop_left, List.take_left]

/-- Code between the marks of an import block is one. -/
theorem isImportBlock_of_text {s : List Char} (h : t.text.toList = ['{'] ++ s ++ ['%', '}']) :
    t.isImportBlock = true := by
  have hfirst : t.first = '{' := first_of_text h
  have hsuffix : ['%', '}'].isSuffixOf t.text.toList = true := by
    rw [List.isSuffixOf_iff_suffix, h]
    exact List.suffix_append _ _
  have hsize : 3 ≤ t.size := by
    rw [size, h]
    simp
  simp [isImportBlock, hfirst, hsuffix, hsize]

/-- Code between braces is a block. -/
theorem isBlock_of_text {s : List Char} (h : t.text.toList = ['{'] ++ s ++ ['}']) :
    t.isBlock = true := by
  have hfirst : t.first = '{' := first_of_text h
  have hlast : t.last = '}' := by
    rw [last, h, List.getLast?_concat]
    rfl
  simp [isBlock, hfirst, hlast]

end YaccGrammar.Token
