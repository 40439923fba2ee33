import YaccGrammar.Proofs.Text.TokenShape

/-!
# Constructs that the text does not close

A text is a sequence of blanks, comments and tokens, and at its end there may be one construct that
is cut off. The tokenizer passes over the sequence, whatever the construct behind it is, and then
reports what kind of construct it is. There is no other way in which it fails.

## Main statements

- `lexeme_of_cutOff`, `exists_cutOff_of_lexeme`: what is cut off, and how it is reported.
- `Tokenizer.exists_takes`: a sequence is taken, up to a last gap.
- `Tokenizer.next_of_cutOff`, `Tokenizer.exists_cutOff_of_next`: only what is cut off is reported.
-/

namespace YaccGrammar

namespace Text

open Letter

/-! ## Sequences -/

/-- A sequence of blanks, complete comments and complete tokens that stands in front of `rest`. A
slash is a token only where what follows makes no comment of it. -/
inductive IsSequence (rest : List Char) : List Char → Prop where
  | nil : IsSequence rest []
  | trivium {x s : List Char} (hx : IsTrivium x) (hs : IsSequence rest s) :
      IsSequence rest (x ++ s)
  | token {x s : List Char} (hx : IsTokenShaped x)
      (hslash : x = ['/'] → ∀ c ∈ (s ++ rest).head?, c ≠ '/' ∧ c ≠ '*')
      (hs : IsSequence rest s) : IsSequence rest (x ++ s)

/-- A construct that the end of the text cuts off. What the kind names begins with `rest`; in front
of it stands nothing of the construct, unless it is a comment inside code. -/
inductive CutOff : (what : Unterminated) → (front rest : List Char) → Prop where
  | comment {t : List Char} (ht : ¬ ['*', '/'] <:+: t) : CutOff .comment [] ('/' :: '*' :: t)
  | literal {q : Char} {t : List Char} (hq : isQuote q = true)
      (ht : ∀ u rest, IsLiteralTail q u → t ≠ u ++ rest) : CutOff .literal [] (q :: t)
  | tag {t : List Char} (ht : '>' ∉ t) : CutOff .tag [] ('<' :: t)
  | code {t : List Char} (hclosed : ∀ body rest, ¬ Closes t body rest)
      (hcomment : ¬ EndsInComment t) : CutOff .code [] ('{' :: t)
  | codeComment {s t : List Char} (hs : IsOpening s) (ht : ¬ ['*', '/'] <:+: t) :
      CutOff .comment ('{' :: s) ('/' :: '*' :: t)

/-- The text is a sequence `p` with a construct behind it that is cut off. -/
structure IsCutAt (what : Unterminated) (text p front rest : List Char) : Prop where
  text_eq : text = p ++ (front ++ rest)
  isSequence : IsSequence (front ++ rest) p
  cutOff : CutOff what front rest

/-- The whole text is a sequence, but for a comment at its end that lacks the line break. -/
def IsWhole (text : List Char) : Prop :=
  IsSequence [] text ∨ ∃ p body, '\n' ∉ body ∧ text = p ++ '/' :: '/' :: body ∧
    IsSequence ('/' :: '/' :: body) p

/-- Two gaps side by side are one. -/
theorem IsGap.append {gap s : List Char} (hgap : IsGap gap) (hs : IsGap s) : IsGap (gap ++ s) := by
  induction hgap with
  | nil => exact hs
  | cons hx _ ih =>
    rw [List.append_assoc]
    exact .cons hx ih

/-- A blank or a comment is a gap. -/
theorem IsTrivium.isGap {x : List Char} (hx : IsTrivium x) : IsGap x := by
  have hgap := IsGap.cons hx .nil
  rwa [List.append_nil] at hgap

/-- A gap may stand in front of a sequence. -/
theorem IsSequence.prepend {rest gap s : List Char} (hgap : IsGap gap) (hs : IsSequence rest s) :
    IsSequence rest (gap ++ s) := by
  induction hgap with
  | nil => exact hs
  | cons hx _ ih =>
    rw [List.append_assoc]
    exact .trivium hx ih

/-- A gap is a sequence without tokens. -/
theorem IsSequence.of_isGap {rest gap : List Char} (hgap : IsGap gap) : IsSequence rest gap := by
  have hs : IsSequence rest (gap ++ []) := .prepend hgap .nil
  rwa [List.append_nil] at hs

/-! ## What is cut off -/

/-- A literal that fails is reported as a literal. -/
theorem quoted_error {q : Char} {s : List Char} {what : Unterminated}
    (h : quoted q s = .error what) : what = .literal := by
  -- by the cases of the scan; a failure comes from the end of the text
  fun_induction quoted q s with
  | case1 =>
    -- the end of the text
    cases h
    rfl
  | case2 c s ih =>
    -- an escape
    cases hs : quoted q s with
    | error e =>
      rw [hs] at h ih
      cases h
      exact ih rfl
    | ok r =>
      rw [hs] at h
      cases h
  | case3 => cases h
  | case4 c s _ _ ih =>
    -- any other character
    cases hs : quoted q s with
    | error e =>
      rw [hs] at h ih
      cases h
      exact ih rfl
    | ok r =>
      rw [hs] at h
      cases h

/-- A literal is cut off where no quote ends it. -/
theorem quoted_eq_error_iff {q : Char} (hq : q ≠ '\\') {s : List Char} {what : Unterminated} :
    quoted q s = .error what ↔
      what = .literal ∧ ∀ u rest, IsLiteralTail q u → s ≠ u ++ rest := by
  constructor
  · intro h
    refine ⟨quoted_error h, ?_⟩
    rintro u rest hu rfl
    rw [quoted_of_isLiteralTail hq hu] at h
    cases h
  · rintro ⟨rfl, hopen⟩
    -- what is taken would be a literal with its closing quote
    cases hs : quoted q s with
    | error e => rw [quoted_error hs]
    | ok r =>
      obtain ⟨hu, hsplit⟩ := isLiteralTail_of_quoted hs
      exact absurd hsplit (hopen _ _ hu)

/-- A tag is cut off where no `>` ends it. -/
theorem tag_eq_error_iff {s : List Char} {what : Unterminated} :
    tag s = .error what ↔ what = .tag ∧ '>' ∉ s := by
  induction s with
  | nil => simp [tag, eq_comm]
  | cons c s ih =>
    rw [tag]
    split
    · next hc => simp [hc]
    · next hc =>
      rw [List.mem_cons, not_or, ← and_assoc, and_right_comm, ← ih]
      cases tag s with
      | error e => simp [Scan.cons, Ne.symm hc]
      | ok r => simp [Scan.cons]

/-- Code is cut off inside a comment, or in another way. -/
theorem code_eq_error_iff {s : List Char} {what : Unterminated} :
    code .plain 0 s = .error what ↔ what = .comment ∧ EndsInComment s ∨
      what = .code ∧ ¬ EndsInComment s ∧ ∀ body rest, ¬ Closes s body rest := by
  -- code that is closed is not reported, and the other two ways tell the kind
  cases course s with
  | @closed body rest h =>
    have hcode := code_of_closes h
    have hcomment : ¬ EndsInComment s := by
      intro hc
      rw [code_of_endsInComment hc] at hcode
      cases hcode
    rw [hcode]
    refine ⟨nofun, ?_⟩
    rintro (⟨-, hc⟩ | ⟨-, -, hnot⟩)
    · exact absurd hc hcomment
    · exact absurd h (hnot body rest)
  | comment h =>
    rw [code_of_endsInComment h]
    simp [h, eq_comm]
  | cut h =>
    have hcode := h 0
    have hcomment : ¬ EndsInComment s := by
      intro hc
      rw [code_of_endsInComment hc] at hcode
      cases hcode
    have hclosed (body rest : List Char) : ¬ Closes s body rest := by
      intro hc
      rw [code_of_closes hc] at hcode
      cases hcode
    rw [hcode]
    simp [hcomment, hclosed, eq_comm]

/-- A character in front does not change what is reported. -/
theorem cons_eq_error_iff {c : Char} {r : Scan} {what : Unterminated} :
    Scan.cons c r = .error what ↔ r = .error what := by
  obtain e | ⟨text, rest⟩ := r
  · rfl
  · simp [Scan.cons]

/-- What begins with a quote, a `<` or a brace begins no comment. -/
theorem begins_of_isQuote {q : Char} (hq : isQuote q = true) (s : List Char) : Begins q s := by
  refine ⟨isBlank_eq_false_of_isQuote hq, ?_⟩
  rintro d u - ⟨rfl, -⟩
  revert hq
  decide

/-- A construct that is cut off is a comment, or it is scanned as a token and reported. -/
theorem lexeme_of_cutOff {what : Unterminated} {front rest : List Char}
    (h : CutOff what front rest) :
    (∃ t, what = .comment ∧ front ++ rest = '/' :: '*' :: t ∧ ¬ ['*', '/'] <:+: t) ∨
      ∃ c s, front ++ rest = c :: s ∧ Begins c s ∧ lexeme c s = .error what := by
  cases h with
  | comment ht => exact .inl ⟨_, rfl, rfl, ht⟩
  | @literal q t hq ht =>
    refine .inr ⟨q, t, rfl, begins_of_isQuote hq t, ?_⟩
    rw [lexeme_literal hq, cons_eq_error_iff, quoted_eq_error_iff (ne_backslash_of_isQuote hq)]
    exact ⟨rfl, ht⟩
  | @tag t ht =>
    refine .inr ⟨'<', t, rfl, ⟨by decide, fun _ _ _ h => absurd h.1 (by decide)⟩, ?_⟩
    rw [lexeme_tag, cons_eq_error_iff, tag_eq_error_iff]
    exact ⟨rfl, ht⟩
  | @code t hclosed hcomment =>
    refine .inr ⟨'{', t, rfl, ⟨by decide, fun _ _ _ h => absurd h.1 (by decide)⟩, ?_⟩
    rw [lexeme_code, cons_eq_error_iff, code_eq_error_iff]
    exact .inr ⟨rfl, hcomment, hclosed⟩
  -- the comment is reported by the code in which it stands
  | @codeComment s t hs ht =>
    refine .inr ⟨'{', _, rfl, ⟨by decide, fun _ _ _ h => absurd h.1 (by decide)⟩, ?_⟩
    rw [lexeme_code, cons_eq_error_iff, code_eq_error_iff]
    exact .inl ⟨rfl, s, t, hs, ht, rfl⟩

/-- What is reported has been cut off. -/
theorem exists_cutOff_of_lexeme {c : Char} {s : List Char} {what : Unterminated}
    (h : lexeme c s = .error what) :
    ∃ front rest, c :: s = front ++ rest ∧ CutOff what front rest := by
  by_cases hquote : isQuote c = true
  · rw [lexeme_literal hquote, cons_eq_error_iff,
      quoted_eq_error_iff (ne_backslash_of_isQuote hquote)] at h
    obtain ⟨rfl, hopen⟩ := h
    exact ⟨[], c :: s, rfl, .literal hquote hopen⟩
  by_cases htag : c = '<'
  · subst htag
    rw [lexeme_tag, cons_eq_error_iff, tag_eq_error_iff] at h
    obtain ⟨rfl, hopen⟩ := h
    exact ⟨[], '<' :: s, rfl, .tag hopen⟩
  by_cases hcode : c = '{'
  · subst hcode
    rw [lexeme_code, cons_eq_error_iff, code_eq_error_iff] at h
    -- inside of code it is the comment that is cut off
    obtain ⟨rfl, u, t, hu, ht, rfl⟩ | ⟨rfl, hcomment, hclosed⟩ := h
    · exact ⟨'{' :: u, '/' :: '*' :: t, rfl, .codeComment hu ht⟩
    · exact ⟨[], '{' :: s, rfl, .code hclosed hcomment⟩
  -- a word and a sign are complete
  by_cases hword : isWordChar c = true
  · rw [lexeme_word hword] at h
    cases h
  · simp [lexeme, hquote, htag, hcode, hword] at h

/-- What is cut off continues no word. -/
theorem CutOff.isWordChar_head {what : Unterminated} {front rest : List Char}
    (h : CutOff what front rest) : ∀ c ∈ (front ++ rest).head?, isWordChar c = false := by
  cases h with
  | literal hq _ =>
    rintro c ⟨⟩
    rw [Bool.eq_false_iff]
    intro hword
    rw [(isWordChar_not_special hword).1] at hq
    contradiction
  | comment | tag | code | codeComment =>
    rintro c ⟨⟩
    decide

/-! ## Words in sequences -/

/-- A token that is no word begins with a character that belongs to no word, and is read whatever
follows it, unless a slash begins a comment there. -/
theorem IsTokenShaped.word_or_lexeme {x : List Char} (hx : IsTokenShaped x) :
    (∃ c u, x = c :: u ∧ isWordChar c = true ∧ ∀ d ∈ u, isWordChar d = true) ∨
      ∃ c u, x = c :: u ∧ isWordChar c = false ∧ isBlank c = false ∧ (c = '/' → u = []) ∧
        lexeme c u = .ok (c :: u, []) := by
  obtain ⟨c, u, rfl, hblank, hlexeme⟩ := lexeme_of_isTokenShaped hx
  -- a word is taken as far as it goes, so it consists of such characters
  cases hc : isWordChar c with
  | true =>
    rw [lexeme_word hc] at hlexeme
    have hpair : (c :: u.takeWhile isWordChar, u.dropWhile isWordChar) = (c :: u, []) :=
      Except.ok.inj hlexeme
    have htaken : u.takeWhile isWordChar = u := (List.cons.inj (congrArg Prod.fst hpair)).2
    exact .inl ⟨c, u, rfl, hc, List.takeWhile_eq_self_iff.mp htaken⟩
  | false =>
    refine .inr ⟨c, u, rfl, hc, hblank, ?_, hlexeme⟩
    rintro rfl
    have hslash : lexeme '/' u = .ok (['/'], u) := rfl
    rw [hslash] at hlexeme
    simpa using hlexeme

/-- What begins with no character of a word has no word in front. -/
theorem dropWhile_isWordChar_cons {c : Char} (hc : isWordChar c = false) (s : List Char) :
    (c :: s).dropWhile isWordChar = c :: s := by
  simp [hc]

/-- The word in front of a text that begins with no character of a word. -/
theorem dropWhile_isWordChar_append {rest : List Char}
    (hrest : ∀ c ∈ rest.head?, isWordChar c = false) (s : List Char) :
    (s ++ rest).dropWhile isWordChar = s.dropWhile isWordChar ++ rest := by
  rw [List.dropWhile_append]
  split
  · next hs =>
    rw [List.isEmpty_iff.mp hs, List.nil_append]
    cases rest with
    | nil => rfl
    | cons c u => exact dropWhile_isWordChar_cons (hrest c rfl) u
  · rfl

/-- A blank or a comment begins with no character of a word. -/
theorem IsTrivium.isWordChar_head {x : List Char} (hx : IsTrivium x) :
    ∃ c u, x = c :: u ∧ isWordChar c = false := by
  cases hx with
  | @blank c hc => exact ⟨c, [], rfl, isWordChar_eq_false_of_isBlank hc⟩
  | lineComment => exact ⟨'/', _, rfl, by decide⟩
  | blockComment => exact ⟨'/', _, rfl, by decide⟩

end Text

namespace Tokenizer

open Text Letter

/-! ## Sequences are taken -/

/-- Tokenizing passes over the text in front of `rest`, up to a last gap. -/
def Passes (rest p : List Char) : Prop :=
  ∀ (t : Tokenizer) (gap : List Char), IsGap gap → t.source.unread = gap ++ (p ++ rest) →
    ∃ ts t' gap', Takes t ts t' ∧ t'.source.unread = gap' ++ rest ∧ IsGap gap'

variable {rest p s gap : List Char} {t t' : Tokenizer} {ts : List Token} {what : Unterminated}

/-- If a token is taken and the rest is passed over, all is passed over. -/
theorem Passes.of_next (h : Passes rest s) {k : Token} {t₁ : Tokenizer}
    (hnext : t.next = .ok (.token k, t₁)) (hunread : t₁.source.unread = s ++ rest) :
    ∃ ts t' gap', Takes t ts t' ∧ t'.source.unread = gap' ++ rest ∧ IsGap gap' := by
  obtain ⟨ts, t', gap', htakes, hunread', hgap'⟩ := h t₁ [] .nil hunread
  exact ⟨k :: ts, t', gap', .cons hnext htakes, hunread', hgap'⟩

/-- A word is taken together with the words that follow it immediately. -/
theorem passes_word {c : Char} {u : List Char} (hrest : ∀ c ∈ rest.head?, isWordChar c = false)
    (hc : isWordChar c = true) (hu : ∀ d ∈ u, isWordChar d = true)
    (hs : Passes rest (s.dropWhile isWordChar)) : Passes rest (c :: u ++ s) := by
  intro t gap hgap hunread
  -- the word ends behind everything that continues it
  have hleft : (u ++ s ++ rest).dropWhile isWordChar = s.dropWhile isWordChar ++ rest := by
    rw [List.append_assoc, List.dropWhile_append_of_pos hu, dropWhile_isWordChar_append hrest]
  have hbegins : Begins c (u ++ s ++ rest) := by
    refine ⟨isBlank_eq_false_of_isWordChar hc, ?_⟩
    rintro d v - ⟨rfl, -⟩
    exact absurd hc (by decide)
  obtain ⟨t₁, hnext, hunread₁, -⟩ := next_of_begins hunread hgap hbegins (lexeme_word hc _)
  exact hs.of_next hnext (hunread₁.trans hleft)

/-- Any other token ends where it does by itself. -/
theorem passes_lexeme {c : Char} {u : List Char} (hc : isWordChar c = false)
    (hblank : isBlank c = false) (hslash : c = '/' → ∀ d ∈ (s ++ rest).head?, d ≠ '/' ∧ d ≠ '*')
    (hlexeme : lexeme c u = .ok (c :: u, [])) (hs : Passes rest s) :
    Passes rest (c :: u ++ s) := by
  intro t gap hgap hunread
  -- only a slash looks at what follows, and there no comment begins
  have hfollows : ∀ d v, s ++ rest = d :: v → mayFollow c d = true := by
    intro d v hd
    by_cases hc' : c = '/'
    · have hd' := hslash hc' d (by rw [hd]; rfl)
      simp [mayFollow, hc, hd'.1, hd'.2]
    · simp [mayFollow, hc, hc']
  rw [List.cons_append, List.cons_append, List.append_assoc] at hunread
  obtain ⟨t₁, hnext, hunread₁, -⟩ := next_of_begins hunread hgap
    (begins_of_lexeme hblank hlexeme hfollows) (lexeme_append hlexeme hfollows)
  exact hs.of_next hnext hunread₁

/-- A sequence is passed over, and so is what is left of it behind a word. -/
theorem passes_of_isSequence (hrest : ∀ c ∈ rest.head?, isWordChar c = false)
    (hp : IsSequence rest p) : Passes rest p ∧ Passes rest (p.dropWhile isWordChar) := by
  induction hp with
  | nil =>
    have hnil : Passes rest [] := fun t gap hgap hunread => ⟨[], t, gap, .nil t, hunread, hgap⟩
    exact ⟨hnil, hnil⟩
  | @trivium x s hx _ ih =>
    have hpasses : Passes rest (x ++ s) := by
      intro t gap hgap hunread
      refine ih.1 t (gap ++ x) (hgap.append hx.isGap) ?_
      rw [hunread, List.append_assoc, List.append_assoc]
    obtain ⟨c, u, rfl, hc⟩ := hx.isWordChar_head
    rw [List.cons_append, dropWhile_isWordChar_cons hc, ← List.cons_append]
    exact ⟨hpasses, hpasses⟩
  -- a word is taken with the words behind it, which is why both parts are proved at once
  | @token x s hx hslash _ ih =>
    obtain ⟨c, u, rfl, hc, hu⟩ | ⟨c, u, rfl, hc, hblank, hone, hlexeme⟩ := hx.word_or_lexeme
    · refine ⟨passes_word hrest hc hu ih.2, ?_⟩
      have hword : ∀ d ∈ c :: u, isWordChar d = true := List.forall_mem_cons.mpr ⟨hc, hu⟩
      rw [List.dropWhile_append_of_pos hword]
      exact ih.2
    · have hpasses : Passes rest (c :: u ++ s) := by
        refine passes_lexeme hc hblank (fun h => hslash ?_) hlexeme ih.1
        rw [h, hone h]
      rw [List.cons_append, dropWhile_isWordChar_cons hc, ← List.cons_append]
      exact ⟨hpasses, hpasses⟩

/-- A sequence is taken, up to its last gap. -/
theorem exists_takes (hrest : ∀ c ∈ rest.head?, isWordChar c = false) (hp : IsSequence rest p)
    (hunread : t.source.unread = p ++ rest) :
    ∃ ts t' gap, Takes t ts t' ∧ t'.source.unread = gap ++ rest ∧ IsGap gap :=
  (passes_of_isSequence hrest hp).1 t [] .nil hunread

/-- What is taken, with the gap behind it, is a sequence. -/
theorem Takes.exists_isSequence (h : Takes t ts t') (hgap : IsGap gap)
    (hunread : t'.source.unread = gap ++ rest) :
    ∃ p, t.source.unread = p ++ rest ∧ IsSequence rest p := by
  induction h with
  | nil t => exact ⟨gap, hunread, .of_isGap hgap⟩
  | @cons t t₁ t' k ts hnext _ ih =>
    obtain ⟨p, hp, hs⟩ := ih hunread
    -- what was read is a gap, a token, and what the other tokens were taken from
    cases reads_of_next hnext with
    | @token g c v _ _ htext hg hbegins hlexeme _ _ =>
      obtain ⟨u, hu, hsplit⟩ := lexeme_ok hlexeme
      have hshape := isTokenShaped_of_lexeme hbegins.1 hlexeme
      rw [hu] at hshape
      rw [hp] at hsplit
      refine ⟨g ++ (c :: u ++ p), by rw [htext, hsplit]; simp, .prepend hg (.token hshape ?_ hs)⟩
      -- a slash is not followed by what would make a comment of it
      intro hone d hd
      obtain ⟨rfl, rfl⟩ := List.cons.inj hone
      obtain ⟨w, hw⟩ := List.head?_eq_some_iff.mp hd
      have hfollows := hbegins.2 d w (by rw [hsplit, ← hw]; rfl)
      simpa using hfollows

/-! ## Failures -/

/-- A construct that is cut off is reported, and the line on which it begins is remembered. -/
theorem next_of_cutOff {front rest : List Char} (hcut : CutOff what front rest)
    (hunread : t.source.unread = gap ++ (front ++ rest)) (hgap : IsGap gap) :
    ∃ t', t.next = .ok (.cut what, t') ∧ t'.source.unread = [] ∧
      t'.startLine = t.line + newlines gap := by
  obtain ⟨u, rfl, hu, hopen⟩ | ⟨c, u, hu, hbegins, hlexeme⟩ := lexeme_of_cutOff hcut
  · rw [hu] at hunread
    obtain ⟨t', hnext, hnil, -, hstart⟩ := next_of_openBlock hunread hgap hopen
    exact ⟨t', hnext, hnil, hstart⟩
  · rw [hu] at hunread
    obtain ⟨t', hnext, hnil, -, hstart⟩ := next_of_error hunread hgap hbegins hlexeme
    exact ⟨t', hnext, hnil, hstart⟩

/-- Only a construct that is cut off is reported. -/
theorem exists_cutOff_of_next (h : t.next = .ok (.cut what, t')) :
    ∃ gap front rest, t.source.unread = gap ++ (front ++ rest) ∧ IsGap gap ∧
      CutOff what front rest := by
  obtain ⟨gap, last, hunread, hgap, hlast⟩ := exists_gap t.source.unread
  -- what follows the gap decides what the call comes to
  cases hlast with
  | nil =>
    rw [List.append_nil] at hunread
    obtain ⟨t'', hnext⟩ := next_of_gap (hunread ▸ hgap)
    rw [h] at hnext
    cases hnext
  | openLine hbody =>
    obtain ⟨t'', hnext, -⟩ := next_of_openLine hunread hgap hbody
    rw [h] at hnext
    cases hnext
  | openBlock hbody =>
    obtain ⟨t'', hnext, -⟩ := next_of_openBlock hunread hgap hbody
    rw [h] at hnext
    cases hnext
    exact ⟨gap, [], _, hunread, hgap, .comment hbody⟩
  | @token c s hbegins =>
    cases hlexeme : lexeme c s with
    | error e =>
      obtain ⟨t'', hnext, -⟩ := next_of_error hunread hgap hbegins hlexeme
      rw [h] at hnext
      cases hnext
      obtain ⟨front, rest, hsplit, hcut⟩ := exists_cutOff_of_lexeme hlexeme
      exact ⟨gap, front, rest, by rw [hunread, hsplit], hgap, hcut⟩
    | ok r =>
      obtain ⟨t'', hnext, -⟩ := next_of_begins hunread hgap hbegins hlexeme
      rw [h] at hnext
      cases hnext

end Tokenizer

end YaccGrammar
