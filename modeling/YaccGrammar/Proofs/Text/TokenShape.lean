import Mathlib.Data.List.TakeWhile
import YaccGrammar.Proofs.Text.CodeBody
import YaccGrammar.Proofs.Text.Prefix

/-!
# Shapes of tokens

What the text of a token looks like, told without the tokenizer: a word, a literal, a tag, a block
of code, or a sign of one character. Every token that is found has one of these shapes, and texts of
these shapes that are printed with gaps between them are found again.

## Main statements

- `isTokenShaped_of_lexeme`, `lexeme_of_isTokenShaped`: these are the tokens that are read.
- `tokenizes_printed`: tokenizing undoes printing.
-/

namespace YaccGrammar

namespace Text

open Letter

/-- The text of a token. -/
inductive IsTokenShaped : List Char → Prop where
  | word {s : List Char} (hne : s ≠ []) (hs : s.all isWordChar = true) : IsTokenShaped s
  | literal {q : Char} {t : List Char} (hq : isQuote q = true) (ht : IsLiteralTail q t) :
      IsTokenShaped (q :: t)
  | tag {t : List Char} (ht : '>' ∉ t) : IsTokenShaped ('<' :: (t ++ ['>']))
  | code {body : List Char} (hbody : IsBody (some '}') body) :
      IsTokenShaped ('{' :: (body ++ ['}']))
  | sign {c : Char} (hblank : isBlank c = false) (hword : isWordChar c = false)
      (hquote : isQuote c = false) (htag : c ≠ '<') (hcode : c ≠ '{') : IsTokenShaped [c]

/-! ## What is read -/

/-- A character of a word begins no other kind of token. -/
theorem isWordChar_not_special {c : Char} (h : isWordChar c = true) :
    isQuote c = false ∧ c ≠ '<' ∧ c ≠ '{' := by
  refine ⟨?_, ?_, ?_⟩
  · rw [Bool.eq_false_iff]
    intro hquote
    simp only [isQuote, Bool.or_eq_true, decide_eq_true_eq] at hquote
    rcases hquote with rfl | rfl
    · exact absurd h (by decide)
    · exact absurd h (by decide)
  · rintro rfl
    exact absurd h (by decide)
  · rintro rfl
    exact absurd h (by decide)

theorem isBlank_eq_false_of_isWordChar {c : Char} (h : isWordChar c = true) :
    isBlank c = false := by
  rw [Bool.eq_false_iff]
  intro hblank
  rw [isWordChar_eq_false_of_isBlank hblank] at h
  contradiction

theorem isBlank_eq_false_of_isQuote {c : Char} (h : isQuote c = true) : isBlank c = false := by
  simp only [isQuote, Bool.or_eq_true, decide_eq_true_eq] at h
  rcases h with rfl | rfl
  · decide
  · decide

/-- A tag is taken up to its first `>`. -/
theorem tag_eq {t : List Char} (ht : '>' ∉ t) (s : List Char) :
    tag (t ++ '>' :: s) = .ok (t ++ ['>'], s) := by
  induction t with
  | nil => rfl
  | cons c t ih =>
    rw [List.mem_cons, not_or] at ht
    rw [List.cons_append, tag, if_neg (Ne.symm ht.1), ih ht.2]
    rfl

/-- A tag that is closed has one `>`, at its end. -/
theorem exists_of_tag {s text rest : List Char} (h : tag s = .ok (text, rest)) :
    ∃ t, '>' ∉ t ∧ text = t ++ ['>'] := by
  fun_induction tag s generalizing text with
  | case1 => cases h
  | case2 s =>
    -- the closing mark
    cases h
    exact ⟨[], by simp, rfl⟩
  | case3 c s hc ih =>
    -- a character in front of it
    cases hs : tag s with
    | error e =>
      rw [hs] at h
      cases h
    | ok r =>
      rw [hs] at h
      cases h
      obtain ⟨t, ht, htext⟩ := ih hs
      exact ⟨c :: t, by simp [ht, Ne.symm hc], congrArg (c :: ·) htext⟩

/-- Where a word begins, all of it is taken. -/
theorem lexeme_word {c : Char} (hc : isWordChar c = true) (s : List Char) :
    lexeme c s = .cons c (.ok (word s)) := by
  obtain ⟨hquote, htag, hcode⟩ := isWordChar_not_special hc
  simp [lexeme, hquote, htag, hcode, hc]

/-- Where a quote stands, a literal is taken. -/
theorem lexeme_literal {q : Char} (hq : isQuote q = true) (s : List Char) :
    lexeme q s = .cons q (quoted q s) := if_pos hq

theorem lexeme_tag (s : List Char) : lexeme '<' s = .cons '<' (tag s) := rfl

theorem lexeme_code (s : List Char) : lexeme '{' s = .cons '{' (code .plain 0 s) := rfl

/-- A text of the shape of a token is read as one token. -/
theorem lexeme_of_isTokenShaped {s : List Char} (h : IsTokenShaped s) :
    ∃ c u, s = c :: u ∧ isBlank c = false ∧ lexeme c u = .ok (c :: u, []) := by
  cases h with
  | word hne hs =>
    obtain ⟨c, u, rfl⟩ := List.exists_cons_of_ne_nil hne
    rw [List.all_cons, Bool.and_eq_true] at hs
    obtain ⟨hc, hu⟩ := hs
    rw [List.all_eq_true] at hu
    have hword : word u = (u, []) := by
      rw [word, List.takeWhile_eq_self_iff.mpr hu, List.dropWhile_eq_nil_iff.mpr hu]
    refine ⟨c, u, rfl, isBlank_eq_false_of_isWordChar hc, ?_⟩
    rw [lexeme_word hc, hword]
    rfl
  | @literal q t hq ht =>
    have htail := quoted_of_isLiteralTail (ne_backslash_of_isQuote hq) ht []
    rw [List.append_nil] at htail
    refine ⟨q, t, rfl, isBlank_eq_false_of_isQuote hq, ?_⟩
    rw [lexeme_literal hq, htail]
    rfl
  | tag ht =>
    refine ⟨'<', _, rfl, by decide, ?_⟩
    rw [lexeme_tag, tag_eq ht]
    rfl
  | code hbody =>
    refine ⟨'{', _, rfl, by decide, ?_⟩
    rw [lexeme_code, code_of_closes ⟨hbody, rfl⟩]
    rfl
  | @sign c hblank hword hquote htag hcode =>
    exact ⟨c, [], rfl, hblank, by simp [lexeme, hword, hquote, htag, hcode]⟩

/-- What is read as a token has the shape of one. -/
theorem isTokenShaped_of_lexeme {c : Char} {s text rest : List Char} (hblank : isBlank c = false)
    (h : lexeme c s = .ok (text, rest)) : IsTokenShaped text := by
  have hcons {r : Scan} (hr : Scan.cons c r = .ok (text, rest)) :
      ∃ t, r = .ok (t, rest) ∧ text = c :: t := by
    obtain e | ⟨t, left⟩ := r
    · cases hr
    · cases hr
      exact ⟨t, rfl, rfl⟩
  by_cases hquote : isQuote c = true
  · rw [lexeme_literal hquote] at h
    obtain ⟨t, ht, rfl⟩ := hcons h
    exact .literal hquote (isLiteralTail_of_quoted ht).1
  by_cases htag : c = '<'
  · subst htag
    rw [lexeme_tag] at h
    obtain ⟨_, ht, rfl⟩ := hcons h
    obtain ⟨t, hclosed, rfl⟩ := exists_of_tag ht
    exact .tag hclosed
  by_cases hcode : c = '{'
  · subst hcode
    rw [lexeme_code] at h
    obtain ⟨_, ht, rfl⟩ := hcons h
    obtain ⟨body, ⟨hbody, -⟩, rfl⟩ := code_eq_ok_iff.mp ht
    exact .code hbody
  by_cases hword : isWordChar c = true
  · rw [lexeme_word hword] at h
    cases h
    apply IsTokenShaped.word (List.cons_ne_nil _ _)
    rw [List.all_cons, hword, Bool.true_and]
    exact List.all_takeWhile
  · -- nothing longer begins here
    simp only [lexeme, hquote, htag, hcode, hword, if_false, Bool.false_eq_true] at h
    cases h
    exact .sign hblank (Bool.eq_false_iff.mpr hword) (Bool.eq_false_iff.mpr hquote) htag hcode

/-- The texts that are taken whole are those of the shape of a token. -/
theorem isToken_iff_isTokenShaped {text : String} :
    isToken text = true ↔ IsTokenShaped text.toList := by
  constructor
  · intro h
    obtain ⟨c, s, htext, hblank, hlexeme⟩ := exists_of_isToken h
    rw [htext]
    exact isTokenShaped_of_lexeme hblank hlexeme
  · intro h
    obtain ⟨c, u, htext, hblank, hlexeme⟩ := lexeme_of_isTokenShaped h
    simp [isToken, htext, hblank, hlexeme, Scan.takesAll]

/-! ## Printing -/

/-- Tokens printed one behind the other, each behind its gap. -/
def printed (pieces : List (List Char × String)) : List Char :=
  pieces.flatMap fun p => p.1 ++ p.2.toList

/-- A gap that keeps any two tokens apart: a blank, and then blanks and complete comments. -/
def IsSeparator (gap : List Char) : Prop := ∃ c s, isBlank c = true ∧ IsGap s ∧ gap = c :: s

theorem IsSeparator.isGap {gap : List Char} (h : IsSeparator gap) : IsGap gap := by
  obtain ⟨c, s, hc, hs, rfl⟩ := h
  exact .blank hc hs

/-- Behind a separator anything may follow a token. -/
theorem separated_of_isSeparator {gap : List Char} (h : IsSeparator gap) (token : String)
    (rest : List Char) : Separated token (gap ++ rest) := by
  obtain ⟨c, s, hc, -, rfl⟩ := h
  exact separated_of_isBlank hc

end Text

namespace Tokenizer

open Text

/-- The text is tokenized to its end, and these are its tokens. -/
def Tokenizes (text : String) (tokens : List String) : Prop :=
  ∃ ts t t', Takes (.ofString text) ts t ∧ t.next = .ok (.nothing, t') ∧
    ts.map Token.text = tokens

/-- Every token that is found has the shape of one. -/
theorem isTokenShaped_of_next {t t' : Tokenizer} {k : Token}
    (h : t.next = .ok (.token k, t')) : IsTokenShaped k.text.toList := by
  cases reads_of_next h with
  | token _ _ hbegins hlexeme _ _ => exact isTokenShaped_of_lexeme hbegins.1 hlexeme

/-- All tokens that are taken have the shape of one. -/
theorem Takes.isTokenShaped {t t' : Tokenizer} {ts : List Token} (h : Takes t ts t') :
    ∀ k ∈ ts, IsTokenShaped k.text.toList := by
  induction h with
  | nil => simp
  | cons hnext _ ih => exact List.forall_mem_cons.mpr ⟨isTokenShaped_of_next hnext, ih⟩

/-- Printed tokens are found one after the other, whatever follows the last one at a distance. -/
theorem takes_printed {pieces : List (List Char × String)} {last : List Char} {t : Tokenizer}
    (hunread : t.source.unread = printed pieces ++ last)
    (hgaps : ∀ p ∈ pieces, IsGap p.1) (hseparators : ∀ p ∈ pieces.tail, IsSeparator p.1)
    (htokens : ∀ p ∈ pieces, IsTokenShaped p.2.toList) (hlast : last = [] ∨ IsSeparator last) :
    ∃ ts t', Takes t ts t' ∧ ts.map Token.text = pieces.map Prod.snd ∧
      t'.source.unread = last := by
  induction pieces generalizing t with
  | nil => exact ⟨[], t, .nil t, rfl, hunread⟩
  | cons p pieces ih =>
    rw [List.forall_mem_cons] at hgaps htokens
    -- behind the token stands the gap of the next piece, or the last gap, or nothing
    have hseparated : Separated p.2 (printed pieces ++ last) := by
      cases pieces with
      | nil =>
        rcases hlast with rfl | hlast
        · exact fun c s d u _ h => nomatch h
        · have hfollows := separated_of_isSeparator hlast p.2 []
          simpa [printed] using hfollows
      | cons p' pieces =>
        have hnext := hseparators p' List.mem_cons_self
        have hfollows := separated_of_isSeparator hnext p.2
          (p'.2.toList ++ (printed pieces ++ last))
        simpa [printed] using hfollows
    have htext : t.source.unread = p.1 ++ p.2.toList ++ (printed pieces ++ last) := by
      rw [hunread]
      simp [printed]
    obtain ⟨line, t₁, hnext, hunread₁⟩ := next_of_token htext hgaps.1
      (isToken_iff_isTokenShaped.mpr htokens.1) hseparated
    obtain ⟨ts, t', htakes, hts, hunread'⟩ := ih hunread₁ hgaps.2
      (fun q hq => hseparators q (List.mem_of_mem_tail hq)) htokens.2
    exact ⟨⟨p.2, line⟩ :: ts, t', .cons hnext htakes, by simp [hts], hunread'⟩

/-- Tokens are found again in whatever way they are printed. -/
theorem tokenizes_of_pieces {pieces : List (List Char × String)} {last : List Char}
    (hgaps : ∀ p ∈ pieces, IsGap p.1) (hseparators : ∀ p ∈ pieces.tail, IsSeparator p.1)
    (htokens : ∀ p ∈ pieces, IsTokenShaped p.2.toList) (hlast : last = [] ∨ IsSeparator last) :
    Tokenizes (String.ofList (printed pieces ++ last)) (pieces.map Prod.snd) := by
  have hunread : (Tokenizer.ofString (String.ofList (printed pieces ++ last))).source.unread =
      printed pieces ++ last := by
    simp [ofString]
  obtain ⟨ts, t, htakes, hts, hunread'⟩ := takes_printed hunread hgaps hseparators htokens hlast
  have hend : IsGap t.source.unread := by
    rw [hunread']
    rcases hlast with rfl | hlast
    · exact .nil
    · exact hlast.isGap
  obtain ⟨t', hnext⟩ := next_of_gap hend
  exact ⟨ts, t, t', htakes, hnext, hts⟩

/-- Tokens joined by blanks, as pieces: the first one stands at the beginning of the text. -/
def spaced : List String → List (List Char × String)
  | [] => []
  | token :: tokens => ([], token) :: tokens.map fun x => ([' '], x)

theorem of_mem_spaced {tokens : List String} {p : List Char × String} (hp : p ∈ spaced tokens) :
    (p.1 = [] ∨ p.1 = [' ']) ∧ p.2 ∈ tokens := by
  cases tokens with
  | nil => simp [spaced] at hp
  | cons token tokens =>
    simp only [spaced, List.mem_cons, List.mem_map] at hp
    obtain rfl | ⟨x, hx, rfl⟩ := hp
    · simp
    · simp [hx]

theorem of_mem_tail_spaced {tokens : List String} {p : List Char × String}
    (hp : p ∈ (spaced tokens).tail) : p.1 = [' '] := by
  cases tokens with
  | nil => simp [spaced] at hp
  | cons token tokens =>
    obtain ⟨x, -, rfl⟩ := List.mem_map.mp hp
    rfl

/-- Tokens joined by blanks are all there. -/
theorem map_snd_spaced (tokens : List String) : (spaced tokens).map Prod.snd = tokens := by
  cases tokens with
  | nil => rfl
  | cons token tokens => simp [spaced, Function.comp_def]

/-- The pieces are printed as the joined text. -/
theorem printed_spaced (tokens : List String) :
    printed (spaced tokens) = (" ".intercalate tokens).toList := by
  cases tokens with
  | nil => rfl
  | cons token tokens =>
    induction tokens generalizing token with
    | nil => simp [printed, spaced]
    | cons x tokens ih =>
      have hlater := ih x
      simp only [String.intercalate_cons_cons, String.toList_append, ← hlater]
      simp [printed, spaced]

/-- Tokens that are joined by single blanks are found again. -/
theorem Takes.tokenizes_joined {t t' : Tokenizer} {ts : List Token} (h : Takes t ts t') :
    Tokenizes (" ".intercalate (ts.map Token.text)) (ts.map Token.text) := by
  have hblank : IsSeparator [' '] := ⟨' ', [], rfl, .nil, rfl⟩
  have hgaps : ∀ p ∈ spaced (ts.map Token.text), IsGap p.1 := by
    intro p hp
    obtain ⟨hgap | hgap, -⟩ := of_mem_spaced hp
    · rw [hgap]
      exact .nil
    · rw [hgap]
      exact hblank.isGap
  have hseparators : ∀ p ∈ (spaced (ts.map Token.text)).tail, IsSeparator p.1 := by
    intro p hp
    rwa [of_mem_tail_spaced hp]
  have htokens : ∀ p ∈ spaced (ts.map Token.text), IsTokenShaped p.2.toList := by
    intro p hp
    obtain ⟨k, hk, htext⟩ := List.mem_map.mp (of_mem_spaced hp).2
    rw [← htext]
    exact h.isTokenShaped k hk
  have hpieces := tokenizes_of_pieces hgaps hseparators htokens (Or.inl rfl)
  rwa [List.append_nil, printed_spaced, String.ofList_toList, map_snd_spaced] at hpieces

/-- Tokenizing undoes printing. Texts of the shapes of tokens, printed with gaps between them that
begin with a blank, are the tokens of the printed text. The gap in front of the first one may begin
in any way, or be missing, and so may the gap at the end be missing. Conversely every token has one
of the shapes, so the tokens of any text, joined by single blanks, are found again. -/
theorem tokenizes_printed :
    (∀ (pieces : List (List Char × String)) (last : List Char),
      (∀ p ∈ pieces, IsGap p.1 ∧ IsTokenShaped p.2.toList) →
      (∀ p ∈ pieces.tail, IsSeparator p.1) → (last = [] ∨ IsSeparator last) →
        Tokenizes (String.ofList (printed pieces ++ last)) (pieces.map Prod.snd)) ∧
      (∀ (t t' : Tokenizer) (k : Token), t.next = .ok (.token k, t') →
        IsTokenShaped k.text.toList) ∧
      ∀ (text : String) (ts : List Token) (t : Tokenizer), Takes (.ofString text) ts t →
        Tokenizes (" ".intercalate (ts.map Token.text)) (ts.map Token.text) := by
  refine ⟨fun pieces last hpieces hseparators hlast => ?_, fun t t' k => isTokenShaped_of_next,
    fun text ts t => Takes.tokenizes_joined⟩
  have hgaps : ∀ p ∈ pieces, IsGap p.1 := fun p hp => (hpieces p hp).1
  have htokens : ∀ p ∈ pieces, IsTokenShaped p.2.toList := fun p hp => (hpieces p hp).2
  exact tokenizes_of_pieces hgaps hseparators htokens hlast

/-- A comment behind a blank ends the word, and the brace in the literal does not end the code. -/
theorem tokenizes_printed_comments :
    Tokenizes "/*x*/ab /*y*/\x7b'\x7d'\x7d" ["ab", "\x7b'\x7d'\x7d"] := by
  have hfirst : IsGap "/*x*/".toList := .cons (@IsTrivium.blockComment ['x'] (by decide)) .nil
  have hcomment : IsGap "/*y*/".toList := .cons (@IsTrivium.blockComment ['y'] (by decide)) .nil
  have hbetween : IsSeparator " /*y*/".toList := ⟨' ', "/*y*/".toList, rfl, hcomment, rfl⟩
  have hword : IsTokenShaped "ab".toList := .word (by decide) (by decide)
  have hliteral : IsBody (some '}') ['\'', '}', '\''] :=
    .literal rfl (.char (by decide) (by decide) .close) .nil
  have hcode : IsTokenShaped "\x7b'\x7d'\x7d".toList := .code hliteral
  apply tokenizes_printed.1 [("/*x*/".toList, "ab"), (" /*y*/".toList, "\x7b'\x7d'\x7d")] []
  · simp only [List.forall_mem_cons]
    exact ⟨⟨hfirst, hword⟩, ⟨hbetween.isGap, hcode⟩, by simp⟩
  · simpa using hbetween
  · exact Or.inl rfl

end Tokenizer

end YaccGrammar
