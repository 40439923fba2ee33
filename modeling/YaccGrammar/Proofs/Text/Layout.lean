import YaccGrammar.Proofs.Text.Pieces

/-!
# Layouts

How tokens stand in a text: in front of every token there may be blanks, and where two tokens would
run into one there has to be a blank. The tokenizer finds the tokens of a layout again.

## Main statements

- `code_append`, `lexeme_append`: what follows a complete token does not change it.
- `Tokenizer.next_of_token`: the tokenizer reads the first token of a layout.
-/

namespace YaccGrammar.Text

open Letter

/-! ## Texts of one token -/

/-- The scan takes everything. -/
def Scan.takesAll : Scan → Bool
  | .ok (_, []) => true
  | _ => false

/-- The text is one token. -/
def isToken (text : String) : Bool :=
  match text.toList with
  | [] => false
  | c :: s => !isBlank c && (lexeme c s).takesAll

/-- A character may follow a token that begins with `c`. -/
def mayFollow (c d : Char) : Bool :=
  !(isWordChar c && isWordChar d) && !(c = '/' && (d = '/' || d = '*'))

/-- A text may follow a token. -/
def Separated (token : String) (rest : List Char) : Prop :=
  ∀ c s d u, token.toList = c :: s → rest = d :: u → mayFollow c d = true

/-- The text consists of the tokens, with blanks in front of them, and then of the tail. -/
inductive Lays (tail : List Char) : List String → List Char → Prop where
  | nil : Lays tail [] tail
  | cons {gap : List Char} {token : String} {tokens : List String} {rest : List Char}
      (hgap : gap.all isBlank = true) (hseparated : Separated token rest)
      (hrest : Lays tail tokens rest) : Lays tail (token :: tokens) (gap ++ token.toList ++ rest)

/-- A blank belongs to no word. -/
theorem isWordChar_eq_false_of_isBlank {c : Char} (h : isBlank c = true) :
    isWordChar c = false := by
  simp only [isBlank, Bool.or_eq_true, decide_eq_true_eq] at h
  rcases h with (((rfl | rfl) | rfl) | rfl) | rfl <;> decide

/-- A layout of two lists is a layout of the first one in front of a layout of the second one. -/
theorem Lays.split {tail text : List Char} {xs ys : List String}
    (h : Lays tail (xs ++ ys) text) : ∃ middle, Lays middle xs text ∧ Lays tail ys middle := by
  induction xs generalizing text with
  | nil => exact ⟨text, .nil, h⟩
  | cons x xs ih =>
    cases h with
    | cons hgap hseparated hrest =>
      obtain ⟨middle, hxs, hys⟩ := ih hrest
      exact ⟨middle, .cons hgap hseparated hxs, hys⟩

/-- A token stands right in front of the rest. -/
theorem Lays.tight {tail rest : List Char} {token : String} {tokens : List String}
    (hseparated : Separated token rest) (hrest : Lays tail tokens rest) :
    Lays tail (token :: tokens) (token.toList ++ rest) :=
  Lays.cons (show ([] : List Char).all isBlank = true from rfl) hseparated hrest

/-- What belongs to no word and to no comment may follow any token. -/
theorem separated_of_sign {token : String} {d : Char} {u : List Char}
    (hword : isWordChar d = false) (hslash : d ≠ '/') (hstar : d ≠ '*') :
    Separated token (d :: u) := by
  intro c s d' u' _ heq
  obtain ⟨rfl, -⟩ := List.cons.inj heq
  simp [mayFollow, hword, hslash, hstar]

/-- After a blank any token may begin. -/
theorem separated_of_isBlank {token : String} {d : Char} {u : List Char}
    (h : isBlank d = true) : Separated token (d :: u) := by
  have hslash : d ≠ '/' ∧ d ≠ '*' := by
    constructor <;> (rintro rfl; revert h; decide)
  exact separated_of_sign (isWordChar_eq_false_of_isBlank h) hslash.1 hslash.2

/-- A mark ends where it stands. -/
theorem separated_of_mark {token : String} {c : Char} (htoken : token.toList = [c])
    (hword : isWordChar c = false) (hslash : c ≠ '/') (rest : List Char) :
    Separated token rest := by
  intro c' s d u hc _
  rw [htoken] at hc
  obtain ⟨rfl, -⟩ := List.cons.inj hc
  simp [mayFollow, hword, hslash]

/-! ## Complete scans -/

/-- The scan succeeds and leaves `rest` behind what it left before. -/
def Scan.Extends (rest : List Char) : Scan → Scan → Prop
  | .ok (text, left), r => r = .ok (text, left ++ rest)
  | .error _, _ => True

/-- A character in front does not change what is extended. -/
theorem Scan.Extends.cons {rest : List Char} {r r' : Scan} (c : Char) (h : r.Extends rest r') :
    (Scan.cons c r).Extends rest (Scan.cons c r') := by
  obtain e | ⟨text, left⟩ := r
  · trivial
  · rw [show r' = .ok (text, left ++ rest) from h]
    rfl

/-- Behind a quote, a character that is no backslash closes the literal or belongs to it. -/
theorem quoted_cons {c : Char} (hescape : c ≠ '\\') (q : Char) (s : List Char) :
    quoted q (c :: s) = if c = q then .ok ([c], s) else .cons c (quoted q s) := by
  rw [quoted]
  exact fun _ _ h => absurd h hescape

/-- What follows a closed literal does not change it. -/
theorem quoted_append {q : Char} (hq : q ≠ '\\') (s rest : List Char) :
    (quoted q s).Extends rest (quoted q (s ++ rest)) := by
  -- by the cases of the scan: the end, an escape, the quote, and any other character
  fun_induction quoted q s with
  | case1 => trivial
  | case2 c s ih => exact (ih.cons c).cons _
  | case3 s =>
    -- the closing quote is the first character in both texts
    rw [List.cons_append, quoted_cons hq, if_pos rfl]
    rfl
  | case4 c s hescape hc ih =>
    cases s with
    | nil => trivial
    | cons d s =>
      -- with a character behind it, a backslash would have been an escape
      have hslash : c ≠ '\\' := fun h => hescape d s h rfl
      rw [List.cons_append, quoted_cons hslash, if_neg hc]
      exact ih.cons c

/-- What follows a closed tag does not change it. -/
theorem tag_append (s rest : List Char) : (tag s).Extends rest (tag (s ++ rest)) := by
  fun_induction tag s with
  | case1 => trivial
  | case2 s => rfl
  | case3 c s hc ih =>
    rw [List.cons_append, tag, if_neg hc]
    exact ih.cons c

/-- A quote is no backslash. -/
theorem ne_backslash_of_isQuote {c : Char} (h : isQuote c = true) : c ≠ '\\' := by
  rintro rfl
  revert h
  decide

/-- A character of code that is neither a brace nor the beginning of a comment. -/
theorem code_plain_cons {c : Char} {s : List Char} (hopen : c ≠ '{') (hclose : c ≠ '}')
    (hline : ∀ u, c = '/' → s ≠ '/' :: u) (hblock : ∀ u, c = '/' → s ≠ '*' :: u) (d : Nat) :
    code .plain d (c :: s) = .cons c (code (if isQuote c then .literal c else .plain) d s) := by
  have hquote : (if isQuote c = true then Scan.cons c (code (.literal c) d s)
      else Scan.cons c (code .plain d s)) =
      .cons c (code (if isQuote c then .literal c else .plain) d s) := by
    split
    · rfl
    · rfl
  cases d with
  | zero =>
    rw [code, if_neg hopen, if_neg hclose, hquote]
    · exact hline
    · exact hblock
  | succ d =>
    rw [code, if_neg hopen, if_neg hclose, hquote]
    · exact hline
    · exact hblock

/-- A character of a comment where no `*/` begins. -/
theorem code_blockComment_cons {c : Char} {s : List Char} (hend : ∀ u, c = '*' → s ≠ '/' :: u)
    (d : Nat) : code .blockComment d (c :: s) = .cons c (code .blockComment d s) := by
  rw [code]
  exact hend

/-- A character of a literal that is no backslash. -/
theorem code_literal_cons {c : Char} (hescape : c ≠ '\\') (q : Char) (d : Nat) (s : List Char) :
    code (.literal q) d (c :: s) =
      .cons c (if c = q then code .plain d s else code (.literal q) d s) := by
  rw [code]
  exact fun _ _ h => absurd h hescape

/-- What does not begin a text does not begin a longer one, unless the text is empty. -/
theorem ne_cons_append {c : Char} {s : List Char} (h : ∀ u, s ≠ c :: u) (hs : s ≠ [])
    (rest u : List Char) : s ++ rest ≠ c :: u := by
  cases s with
  | nil => exact absurd rfl hs
  | cons e s =>
    rw [List.cons_append, Ne, List.cons.injEq]
    rintro ⟨rfl, -⟩
    exact h s rfl

/-- Wherever the scan looks at two characters, an end of the text between them makes it fail. -/
theorem code_append {r : CodeRegion} (hr : r ≠ .literal '\\') (d : Nat) (s rest : List Char) :
    (code r d s).Extends rest (code r d (s ++ rest)) := by
  have hplain : CodeRegion.plain ≠ .literal '\\' := CodeRegion.noConfusion
  -- a scan that ends within a region fails, and a failed scan promises nothing
  fun_induction code r d s with
  | case1 | case9 | case11 | case14 => trivial
  | case2 d s ih => exact ((ih CodeRegion.noConfusion).cons _).cons _
  | case3 d s ih => exact ((ih CodeRegion.noConfusion).cons _).cons _
  | case4 d s _ _ ih => exact (ih hplain).cons _
  | case5 s => rfl
  | case6 s d _ _ _ ih => exact (ih hplain).cons _
  -- a quote begins a literal in both texts
  | case7 d c s hline hblock hopen hclose hquote ih =>
    have hslash : c ≠ '/' := by
      rintro rfl
      revert hquote
      decide
    rw [List.cons_append, code_plain_cons hopen hclose (fun _ h => absurd h hslash)
      (fun _ h => absurd h hslash), if_pos hquote]
    have hliteral : CodeRegion.literal c ≠ .literal '\\' :=
      fun h => ne_backslash_of_isQuote hquote (CodeRegion.literal.inj h)
    exact (ih hliteral).cons c
  | case8 d c s hline hblock hopen hclose hquote ih =>
    -- a slash looks at the next character, which is the same unless the text ends here
    by_cases hs : s = []
    · subst hs
      trivial
    · rw [List.cons_append, code_plain_cons hopen hclose
        (fun u hc => ne_cons_append (fun u => hline u hc) hs rest u)
        (fun u hc => ne_cons_append (fun u => hblock u hc) hs rest u), if_neg hquote]
      exact (ih hplain).cons c
  | case10 d c s ih₁ ih₂ =>
    -- a comment up to the end of its line
    rw [List.cons_append, code]
    apply Scan.Extends.cons
    split
    · exact ih₁ hplain
    · exact ih₂ CodeRegion.noConfusion
  | case12 d s ih => exact ((ih hplain).cons _).cons _
  | case13 d c s hend ih =>
    -- a star looks at the next character as well
    by_cases hs : s = []
    · subst hs
      trivial
    · rw [List.cons_append, code_blockComment_cons
        (fun u hc => ne_cons_append (fun u => hend u hc) hs rest u)]
      exact (ih CodeRegion.noConfusion).cons c
  | case15 q d c s ih => exact ((ih hr).cons _).cons _
  -- in a literal the text may end behind a backslash, where the scan fails
  | case16 q d c s hescape ih₁ ih₂ =>
    cases s with
    | nil =>
      show Scan.Extends rest (Scan.cons c (if c = q then .error _ else .error _)) _
      split
      · trivial
      · trivial
    | cons e s =>
      have hslash : c ≠ '\\' := fun h => hescape e s h rfl
      rw [List.cons_append, code_literal_cons hslash]
      apply Scan.Extends.cons
      split
      · exact ih₁ hplain
      · exact ih₂ hr

/-! ## Tokens in a layout -/

/-- A scan that takes everything takes the text. -/
theorem takesAll_eq {s : List Char} {r : Scan} (hsplits : r.Splits s) (h : r.takesAll = true) :
    r = .ok (s, []) := by
  obtain e | ⟨text, rest⟩ := r
  · cases h
  · cases rest with
    | nil => rw [← hsplits, List.append_nil]
    | cons c u => cases h

/-- The text of a token begins with no blank, and is taken as a whole. -/
theorem exists_of_isToken {text : String} (h : isToken text = true) :
    ∃ c s, text.toList = c :: s ∧ isBlank c = false ∧ lexeme c s = .ok (c :: s, []) := by
  unfold isToken at h
  cases htext : text.toList with
  | nil =>
    rw [htext] at h
    cases h
  | cons c s =>
    rw [htext] at h
    simp only [Bool.and_eq_true, Bool.not_eq_true'] at h
    exact ⟨c, s, rfl, h.1, takesAll_eq (lexeme_splits c s) h.2⟩

/-- A layout has at least as many characters as tokens. -/
theorem Lays.length_le {tail text : List Char} {tokens : List String} (h : Lays tail tokens text)
    (htokens : ∀ x ∈ tokens, isToken x = true) : tokens.length ≤ text.length := by
  induction h with
  | nil => exact Nat.zero_le _
  | cons _ _ _ ih =>
    rw [List.forall_mem_cons] at htokens
    obtain ⟨c, s, htext, -⟩ := exists_of_isToken htokens.1
    have hrest := ih htokens.2
    rw [List.length_cons, List.length_append, List.length_append, htext, List.length_cons]
    omega

/-- A word that the text ends is a word in front of whatever is no part of a word; any other word
ends where it did. -/
theorem word_append {s text left rest : List Char} (hs : word s = (text, left))
    (hrest : left = [] → ∀ d u, rest = d :: u → isWordChar d = false) :
    word (s ++ rest) = (text, left ++ rest) := by
  obtain ⟨htext, hleft⟩ := Prod.mk.inj hs
  induction s generalizing text with
  | nil =>
    subst htext hleft
    cases rest with
    | nil => rfl
    | cons d u =>
      have hd := hrest rfl d u rfl
      simp [word, hd]
  | cons c s ih =>
    -- the word goes on, or it ends here in both texts
    by_cases hc : isWordChar c = true
    · rw [List.takeWhile_cons_of_pos hc] at htext
      rw [List.dropWhile_cons_of_pos hc] at hleft
      have hlater := ih (Prod.ext rfl hleft) rfl hleft
      obtain ⟨htext', hleft'⟩ := Prod.mk.inj hlater
      rw [List.cons_append, word, List.takeWhile_cons_of_pos hc, List.dropWhile_cons_of_pos hc,
        htext', hleft', ← htext]
      rfl
    · rw [List.takeWhile_cons_of_neg hc] at htext
      rw [List.dropWhile_cons_of_neg hc] at hleft
      rw [List.cons_append, word, List.takeWhile_cons_of_neg hc, List.dropWhile_cons_of_neg hc,
        htext, ← hleft, List.cons_append]

/-- What follows the end of a token does not change it, unless it continues a word. -/
theorem lexeme_append_of_ok {c : Char} {s text left rest : List Char}
    (h : lexeme c s = .ok (text, left))
    (hrest : left = [] → ∀ d u, rest = d :: u → isWordChar c = true → isWordChar d = false) :
    lexeme c (s ++ rest) = .ok (text, left ++ rest) := by
  have hextends {r r' : Scan} (hr : Scan.Extends rest r r')
      (h : Scan.cons c r = .ok (text, left)) : Scan.cons c r' = .ok (text, left ++ rest) := by
    have hc := hr.cons c
    rw [h] at hc
    exact hc
  -- by the first character: literal, tag, code, word, or a sign
  by_cases hquote : isQuote c = true
  · rw [lexeme, if_pos hquote] at h ⊢
    exact hextends (quoted_append (ne_backslash_of_isQuote hquote) s rest) h
  by_cases htag : c = '<'
  · rw [lexeme, if_neg hquote, if_pos htag] at h ⊢
    exact hextends (tag_append s rest) h
  by_cases hcode : c = '{'
  · rw [lexeme, if_neg hquote, if_neg htag, if_pos hcode] at h ⊢
    exact hextends (code_append CodeRegion.noConfusion 0 s rest) h
  by_cases hword : isWordChar c = true
  · rw [lexeme, if_neg hquote, if_neg htag, if_neg hcode, if_pos hword] at h ⊢
    cases h
    rw [word_append rfl fun hleft d u hd => hrest hleft d u hd hword]
    rfl
  · rw [lexeme, if_neg hquote, if_neg htag, if_neg hcode, if_neg hword] at h ⊢
    cases h
    rfl

/-- What may follow a token is no part of it. -/
theorem lexeme_append {c : Char} {s rest : List Char} (h : lexeme c s = .ok (c :: s, []))
    (hrest : ∀ d u, rest = d :: u → mayFollow c d = true) :
    lexeme c (s ++ rest) = .ok (c :: s, rest) := by
  refine lexeme_append_of_ok h fun _ d u hd hword => ?_
  have hmay := hrest d u hd
  simp only [mayFollow, hword, Bool.true_and, Bool.and_eq_true, Bool.not_eq_true'] at hmay
  exact hmay.1

/-- In front of a token and what may follow it no comment begins. -/
theorem begins_of_lexeme {c : Char} {s rest : List Char} (hblank : isBlank c = false)
    (h : lexeme c s = .ok (c :: s, [])) (hrest : ∀ d u, rest = d :: u → mayFollow c d = true) :
    Begins c (s ++ rest) := by
  refine ⟨hblank, ?_⟩
  rintro d u hd ⟨rfl, hcomment⟩
  -- a slash is a token by itself, so the comment would begin with what follows
  have hs : s = [] := by
    have hlexeme : lexeme '/' s = .ok (['/'], s) := rfl
    rw [hlexeme, Except.ok.injEq, Prod.mk.injEq] at h
    exact h.2
  rw [hs, List.nil_append] at hd
  have hmay := hrest d u hd
  simp only [mayFollow, Bool.and_eq_true, Bool.not_eq_true', decide_true, Bool.true_and,
    Bool.or_eq_false_iff, decide_eq_false_iff_not] at hmay
  exact hcomment.elim hmay.2.1 hmay.2.2

end YaccGrammar.Text

namespace YaccGrammar.Tokenizer

open Text

/-- The tokenizer reads a token and leaves what follows it. -/
theorem next_of_token {t : Tokenizer} {gap rest : List Char} {token : String}
    (hunread : t.source.unread = gap ++ token.toList ++ rest) (hgap : IsGap gap)
    (htoken : isToken token = true) (hseparated : Separated token rest) :
    ∃ line t', t.next = .ok (.token ⟨token, line⟩, t') ∧ t'.source.unread = rest := by
  obtain ⟨c, s, htext, hblank, hlexeme⟩ := exists_of_isToken htoken
  have hrest : ∀ d u, rest = d :: u → mayFollow c d = true :=
    fun d u hd => hseparated c s d u htext hd
  rw [htext, List.append_assoc, List.cons_append] at hunread
  obtain ⟨t', hnext, hunread', -⟩ := next_of_begins hunread hgap
    (begins_of_lexeme hblank hlexeme hrest) (lexeme_append hlexeme hrest)
  rw [← htext, String.ofList_toList] at hnext
  exact ⟨_, t', hnext, hunread'⟩

/-- Nothing is found in a gap. -/
theorem next_of_gap {t : Tokenizer} (hunread : IsGap t.source.unread) :
    ∃ t', t.next = .ok (.nothing, t') := by
  obtain ⟨mark, hskip⟩ := skip_gap hunread t.line t.startLine []
  rw [List.append_nil] at hskip
  unfold next
  simp only [hskip, skip]
  exact ⟨_, rfl⟩

end YaccGrammar.Tokenizer
