import YaccGrammar.Proofs.Text.Scanner

/-!
# Code blocks

What may stand in a code block is told by a grammar: characters, blocks in braces, literals and
comments. Reading a block takes a body of this grammar and the brace behind it, and a text has at
most one such beginning. A text without one is read to its end.

## Main statements

- `code_body`: a body is taken, whatever follows it.
- `course`: every text begins with a body and a brace, or ends in a comment, or leaves the code
  open in another way.
- `Scanner.readCode_ends`: where reading a block ends.
-/

namespace YaccGrammar

namespace Text

/-! ## The grammar of code -/

/-- A literal behind its opening quote, up to the first quote that no backslash takes with it. -/
inductive IsLiteralTail (q : Char) : List Char → Prop where
  | close : IsLiteralTail q [q]
  | escape {c : Char} {s : List Char} (hs : IsLiteralTail q s) : IsLiteralTail q ('\\' :: c :: s)
  | char {c : Char} {s : List Char} (hquote : c ≠ q) (hslash : c ≠ '\\')
      (hs : IsLiteralTail q s) : IsLiteralTail q (c :: s)

/-- The body of a code block, in front of the character `next` or of the end of the text. What
follows it matters only for a slash, which must not begin a comment. -/
inductive IsBody : (next : Option Char) → List Char → Prop where
  | nil {next : Option Char} : IsBody next []
  | char {next : Option Char} {c : Char} {s : List Char} (hopen : c ≠ '{') (hclose : c ≠ '}')
      (hslash : c ≠ '/') (hquote : isQuote c = false) (hs : IsBody next s) : IsBody next (c :: s)
  | braces {next : Option Char} {body s : List Char} (hbody : IsBody (some '}') body)
      (hs : IsBody next s) : IsBody next ('{' :: body ++ '}' :: s)
  | literal {next : Option Char} {q : Char} {t s : List Char} (hq : isQuote q = true)
      (ht : IsLiteralTail q t) (hs : IsBody next s) : IsBody next (q :: t ++ s)
  | lineComment {next : Option Char} {t s : List Char} (ht : '\n' ∉ t) (hs : IsBody next s) :
      IsBody next ('/' :: '/' :: t ++ '\n' :: s)
  /-- The comment ends with the first `*/` behind its opening. -/
  | blockComment {next : Option Char} {t s : List Char} (ht : ¬ ['*', '/'] <:+: t)
      (hs : IsBody next s) : IsBody next ('/' :: '*' :: t ++ '*' :: '/' :: s)
  | slash {next : Option Char} {s : List Char} (hs : IsBody next s)
      (hnext : ∀ c ∈ s.head?.or next, c ≠ '/' ∧ c ≠ '*') : IsBody next ('/' :: s)

/-- The text begins with a body and the brace that closes it. -/
def Closes (u body rest : List Char) : Prop := IsBody (some '}') body ∧ u = body ++ '}' :: rest

/-- Code in front of a comment, in which blocks may be left open. -/
inductive IsOpening : List Char → Prop where
  | body {s : List Char} (hs : IsBody (some '/') s) : IsOpening s
  | brace {s t : List Char} (hs : IsBody (some '{') s) (ht : IsOpening t) :
      IsOpening (s ++ '{' :: t)

/-- The text ends inside a comment that was opened with `/*` in the code. -/
def EndsInComment (u : List Char) : Prop :=
  ∃ s t, IsOpening s ∧ ¬ ['*', '/'] <:+: t ∧ u = s ++ '/' :: '*' :: t

/-! ## Bodies one behind the other -/

/-- Bodies may be put together where the first one may stand in front of the second one. -/
theorem IsBody.append {next next' : Option Char} {b s : List Char} (hb : IsBody next b)
    (hs : IsBody next' s) (hnext : s.head?.or next' = next) : IsBody next' (b ++ s) := by
  -- piece by piece of the first body; an inner block has its own brace behind it
  induction hb with
  | nil => exact hs
  | char hopen hclose hslash hquote _ ih => exact .char hopen hclose hslash hquote (ih hnext)
  | braces hbody _ _ ih =>
    have hlater := IsBody.braces hbody (ih hnext)
    simpa using hlater
  | literal hq ht _ ih =>
    have hlater := IsBody.literal hq ht (ih hnext)
    simpa using hlater
  | lineComment ht _ ih =>
    have hlater := IsBody.lineComment ht (ih hnext)
    simpa using hlater
  | blockComment ht _ ih =>
    have hlater := IsBody.blockComment ht (ih hnext)
    simpa using hlater
  | @slash next b _ hlook ih =>
    -- what the slash looks at is the same
    refine .slash (ih hnext) fun c hc => hlook c ?_
    subst hnext
    cases b with
    | nil => simpa using hc
    | cons d b => simpa using hc

/-- A body may stand in front of an opening. -/
theorem IsOpening.prepend {b s : List Char} (hs : IsOpening s)
    (hb : IsBody (s.head?.or (some '/')) b) : IsOpening (b ++ s) := by
  cases hs with
  | body hs => exact .body (hb.append hs rfl)
  | @brace s t hs ht =>
    rw [← List.append_assoc]
    -- the brace is what the body stands in front of, if the code is empty
    refine .brace (hb.append hs ?_) ht
    cases s with
    | nil => rfl
    | cons c s => rfl

/-- A body may stand in front of what closes. -/
theorem Closes.prepend {b u body rest : List Char} (h : Closes u body rest)
    (hb : IsBody u.head? b) : Closes (b ++ u) (b ++ body) rest := by
  obtain ⟨hbody, rfl⟩ := h
  refine ⟨hb.append hbody ?_, (List.append_assoc _ _ _).symm⟩
  cases body with
  | nil => rfl
  | cons c body => rfl

/-- A body may stand in front of what ends in a comment. -/
theorem EndsInComment.prepend {b u : List Char} (h : EndsInComment u) (hb : IsBody u.head? b) :
    EndsInComment (b ++ u) := by
  obtain ⟨s, t, hs, ht, rfl⟩ := h
  refine ⟨b ++ s, t, hs.prepend ?_, ht, (List.append_assoc _ _ _).symm⟩
  cases s with
  | nil => exact hb
  | cons c s => exact hb

/-! ## Literals -/

/-- What is put in front may be put there in two steps. -/
theorem Scan.prepend_append (s t : List Char) (r : Scan) :
    Scan.prepend (s ++ t) r = Scan.prepend s (Scan.prepend t r) := by
  obtain e | ⟨text, rest⟩ := r
  · rfl
  · simp [Scan.prepend]

/-- A literal is taken up to its closing quote. -/
theorem quoted_of_isLiteralTail {q : Char} (hq : q ≠ '\\') {t : List Char}
    (ht : IsLiteralTail q t) (s : List Char) : quoted q (t ++ s) = .ok (t, s) := by
  induction ht with
  | close => rw [List.singleton_append, quoted_cons hq, if_pos rfl]
  | escape _ ih =>
    rw [List.cons_append, List.cons_append, quoted, ih]
    rfl
  | char hquote hslash _ ih =>
    rw [List.cons_append, quoted_cons hslash, if_neg hquote, ih]
    rfl

/-- What is taken behind a quote is a literal up to its closing quote. -/
theorem isLiteralTail_of_quoted {q : Char} {s text rest : List Char}
    (h : quoted q s = .ok (text, rest)) : IsLiteralTail q text ∧ s = text ++ rest := by
  have hsplits := quoted_splits q s
  rw [h] at hsplits
  refine ⟨?_, hsplits.symm⟩
  clear hsplits
  -- by the cases of the scan: the end, an escape, the quote, and any other character
  fun_induction quoted q s generalizing text with
  | case1 => cases h
  | case2 c s ih =>
    cases hs : quoted q s with
    | error e =>
      rw [hs] at h
      cases h
    | ok r =>
      rw [hs] at h
      cases h
      exact .escape (ih hs)
  | case3 s =>
    cases h
    exact .close
  | case4 c s hescape hc ih =>
    cases hs : quoted q s with
    | error e =>
      rw [hs] at h
      cases h
    | ok r =>
      rw [hs] at h
      cases h
      -- behind a backslash that takes nothing with it the text would have ended
      have hslash : c ≠ '\\' := by
        rintro rfl
        cases s with
        | nil => cases hs
        | cons d s => exact hescape d s rfl rfl
      exact .char hc hslash (ih hs)

/-! ## Bodies are taken -/

/-- An opening brace leads one level deeper. -/
theorem code_open (d : Nat) (s : List Char) :
    code .plain d ('{' :: s) = .cons '{' (code .plain (d + 1) s) := by
  cases d <;> rfl

/-- A closing brace leads back by one level. -/
theorem code_close (d : Nat) (s : List Char) :
    code .plain (d + 1) ('}' :: s) = .cons '}' (code .plain d s) := rfl

/-- A quote begins a literal at any depth. -/
theorem code_quote {q : Char} (hq : isQuote q = true) (d : Nat) (s : List Char) :
    code .plain d (q :: s) = .cons q (code (.literal q) d s) := by
  -- a quote is none of the characters that are looked at first
  have hother : q ≠ '{' ∧ q ≠ '}' ∧ q ≠ '/' := by
    refine ⟨?_, ?_, ?_⟩ <;> (rintro rfl; revert hq; decide)
  rw [Scanner.code_other hother.1 hother.2.1 hother.2.2, if_pos hq]

/-- Code that the text does not close is reported at any depth. -/
theorem code_nil (d : Nat) : code .plain d [] = .error .code := by
  cases d <;> rfl

/-- A body is taken, whatever the depth is and whatever follows it. -/
theorem code_body {next : Option Char} {b : List Char} (hb : IsBody next b) {s : List Char}
    (hnext : s.head? = next) (d : Nat) :
    code .plain d (b ++ s) = Scan.prepend b (code .plain d s) := by
  induction hb generalizing d s with
  | nil => exact (Scan.prepend_nil _).symm
  | char hopen hclose hslash hquote _ ih =>
    rw [List.cons_append, Scanner.code_other hopen hclose hslash, hquote]
    simp only [Bool.false_eq_true, if_false]
    rw [ih hnext, Scan.cons_prepend]
  | @braces next body t hbody ht ihbody iht =>
    -- the inner block is taken one level deeper
    have htext : '{' :: body ++ '}' :: t ++ s = '{' :: (body ++ '}' :: (t ++ s)) := by simp
    rw [htext, code_open, ihbody rfl, code_close, iht hnext, Scan.cons_prepend, Scan.cons_prepend,
      ← Scan.prepend_append]
  | @literal next q t u hq ht hu ih =>
    have htext : q :: t ++ u ++ s = q :: (t ++ (u ++ s)) := by simp
    have hescape := ne_backslash_of_isQuote hq
    rw [htext, code_quote hq, Scanner.code_literal hescape, quoted_of_isLiteralTail hescape ht]
    dsimp only
    rw [ih hnext, ← Scan.prepend_append, Scan.cons_prepend]
    rfl
  -- the line break behind the comment belongs to it
  | @lineComment next t u ht hu ih =>
    have htext : '/' :: '/' :: t ++ '\n' :: u ++ s = '/' :: '/' :: (t ++ '\n' :: (u ++ s)) := by
      simp
    rw [htext, code, Scanner.code_lineComment d ht, ih hnext, ← Scan.prepend_append,
      Scan.cons_prepend, Scan.cons_prepend]
    simp
  | @blockComment next t u ht hu ih =>
    have htext : '/' :: '*' :: t ++ '*' :: '/' :: u ++ s =
        '/' :: '*' :: (t ++ '*' :: '/' :: (u ++ s)) := by
      simp
    rw [htext, code, Scanner.code_blockComment d ht, ih hnext, ← Scan.prepend_append,
      Scan.cons_prepend, Scan.cons_prepend]
    simp
  | @slash next u hu hlook ih =>
    have hcomment : ∀ c v, u ++ s = c :: v → Scanner.opensComment c = false := by
      intro c v hv
      have hc : c ∈ u.head?.or next := by
        rw [← hnext, ← List.head?_append, hv]
        rfl
      simpa [Scanner.opensComment] using hlook c hc
    rw [List.cons_append, Scanner.code_slash d hcomment, ih hnext, Scan.cons_prepend]

/-- A body in front of its brace is the block. -/
theorem code_of_closes {u body rest : List Char} (h : Closes u body rest) :
    code .plain 0 u = .ok (body ++ ['}'], rest) := by
  obtain ⟨hbody, rfl⟩ := h
  rw [code_body hbody rfl]
  rfl

/-- A text has at most one body in front of its brace. -/
theorem Closes.unique {u body rest body' rest' : List Char} (h : Closes u body rest)
    (h' : Closes u body' rest') : body = body' ∧ rest = rest' := by
  have hsame := (code_of_closes h).symm.trans (code_of_closes h')
  simpa using hsame

/-- A comment that the text does not close is reported at any depth. -/
theorem code_of_endsInComment {u : List Char} (h : EndsInComment u) (d : Nat) :
    code .plain d u = .error .comment := by
  obtain ⟨s, t, hs, ht, rfl⟩ := h
  induction hs generalizing d with
  | body hs =>
    rw [code_body hs rfl, code, Scanner.code_openBlock d ht]
    rfl
  -- inside an inner block the comment is reported as well
  | brace hs _ ih =>
    rw [List.append_assoc, List.cons_append, code_body hs rfl, code_open, ih]
    rfl

/-! ## Every text -/

/-- How code goes on: to a brace that closes it, into a comment that is not closed, or to the end of
the text in another way. -/
inductive Course (u : List Char) : Prop where
  | closed {body rest : List Char} (h : Closes u body rest) : Course u
  | comment (h : EndsInComment u) : Course u
  | cut (h : ∀ d, code .plain d u = .error .code) : Course u

/-- A body in front does not change how code goes on. -/
theorem Course.prepend {b u : List Char} (h : Course u) (hb : IsBody u.head? b) :
    Course (b ++ u) := by
  cases h with
  | closed h => exact .closed (h.prepend hb)
  | comment h => exact .comment (h.prepend hb)
  | cut h =>
    refine .cut fun d => ?_
    rw [code_body hb rfl, h]
    rfl

section Pieces

/- What code begins with tells how it goes on, if that is known of all texts that are shorter. -/
variable {s : List Char} (hshorter : ∀ u : List Char, u.length ≤ s.length → Course u)

include hshorter

/-- A body in front of a text that is no longer. -/
theorem course_of_body {b u x : List Char} (hb : IsBody u.head? b) (hx : x = b ++ u)
    (hu : u.length ≤ s.length) : Course x := by
  rw [hx]
  exact (hshorter u hu).prepend hb

/-- An opening brace begins an inner block, or leaves the code open. -/
theorem course_braces : Course ('{' :: s) := by
  cases hshorter s (Nat.le_refl _) with
  | @closed body rest h =>
    -- the inner block is a piece of the outer one
    obtain ⟨hbody, rfl⟩ := h
    apply course_of_body hshorter (u := rest) (.braces hbody .nil)
    · simp
    · simp
      omega
  | comment h =>
    obtain ⟨v, t, hv, ht, rfl⟩ := h
    exact .comment ⟨'{' :: v, t, .brace .nil hv, ht, rfl⟩
  | cut h =>
    refine .cut fun d => ?_
    rw [code_open, h]
    rfl

/-- A quote begins a literal, or leaves the code open. -/
theorem course_literal {q : Char} (hq : isQuote q = true) : Course (q :: s) := by
  have hescape := ne_backslash_of_isQuote hq
  cases hliteral : quoted q s with
  | ok r =>
    obtain ⟨t, rest⟩ := r
    -- the literal is a piece, and what follows it is shorter
    obtain ⟨ht, rfl⟩ := isLiteralTail_of_quoted hliteral
    apply course_of_body hshorter (u := rest) (.literal hq ht .nil)
    · simp
    · simp
  | error e =>
    refine .cut fun d => ?_
    rw [code_quote hq, Scanner.code_literal hescape, hliteral]
    rfl

/-- A comment up to the end of the line is a piece of code, or leaves it open. -/
theorem course_lineComment : Course ('/' :: '/' :: s) := by
  by_cases hline : '\n' ∈ s
  · obtain ⟨t, rest, rfl, ht⟩ := List.eq_append_cons_of_mem hline
    apply course_of_body hshorter (u := rest) (.lineComment ht .nil)
    · simp
    · simp
      omega
  · refine .cut fun d => ?_
    rw [code, Scanner.code_openLine d hline]
    rfl

/-- A comment in the code is a piece of it, or the text ends in it. -/
theorem course_blockComment : Course ('/' :: '*' :: s) := by
  by_cases hblock : ['*', '/'] <:+: s
  · obtain ⟨t, rest, ht, rfl⟩ := exists_blockComment hblock
    apply course_of_body hshorter (u := rest) (.blockComment ht .nil)
    · simp
    · simp
      omega
  · exact .comment ⟨[], s, .body .nil, hblock, rfl⟩

/-- A slash begins a comment, or is a piece of code by itself. -/
theorem course_slash : Course ('/' :: s) := by
  by_cases hcomment : ∀ c ∈ s.head?, c ≠ '/' ∧ c ≠ '*'
  · exact course_of_body hshorter (.slash .nil (by simpa using hcomment)) rfl (Nat.le_refl _)
  · simp only [not_forall, not_and_or, not_not, Option.mem_def, List.head?_eq_some_iff] at hcomment
    obtain ⟨c, ⟨t, rfl⟩, rfl | rfl⟩ := hcomment
    · exact course_lineComment fun u hu => hshorter u (by simp; omega)
    · exact course_blockComment fun u hu => hshorter u (by simp; omega)

/-- How code goes on behind its first character. -/
theorem course_cons (c : Char) : Course (c :: s) := by
  -- the characters with a meaning of their own, one after the other
  by_cases hclose : c = '}'
  · subst hclose
    exact .closed ⟨.nil, rfl⟩
  by_cases hopen : c = '{'
  · subst hopen
    exact course_braces hshorter
  by_cases hslash : c = '/'
  · subst hslash
    exact course_slash hshorter
  by_cases hquote : isQuote c = true
  · exact course_literal hshorter hquote
  · have hbody : IsBody s.head? [c] :=
      .char hopen hclose hslash (Bool.eq_false_iff.mpr hquote) .nil
    exact course_of_body hshorter hbody rfl (Nat.le_refl _)

end Pieces

/-- Every text begins with a body and a brace, or ends in a comment, or leaves the code open in
another way. -/
theorem course (u : List Char) : Course u := by
  induction hn : u.length using Nat.strongRecOn generalizing u with
  | ind n ih =>
    cases u with
    | nil => exact .cut code_nil
    | cons c s =>
      refine course_cons (fun v hv => ih v.length ?_ v rfl) c
      rw [← hn, List.length_cons]
      omega

/-- The blocks that are taken are those of the grammar. -/
theorem code_eq_ok_iff {u text rest : List Char} :
    code .plain 0 u = .ok (text, rest) ↔ ∃ body, Closes u body rest ∧ text = body ++ ['}'] := by
  constructor
  · intro h
    cases course u with
    | closed hu =>
      have hsame := h.symm.trans (code_of_closes hu)
      cases hsame
      exact ⟨_, hu, rfl⟩
    | comment hu =>
      rw [code_of_endsInComment hu] at h
      cases h
    | cut hu =>
      rw [hu] at h
      cases h
  · rintro ⟨body, hu, rfl⟩
    exact code_of_closes hu

end Text

namespace Scanner

open Text

/-- Where reading a block ends, behind its opening brace and character by character. It succeeds
exactly if what is left of the text begins with a body and a brace; there is only one such
beginning, and it is all that is taken and appended to the token. Otherwise everything that is left
is taken, and what is reported is the comment if the text ends in a comment that was opened with
`/*`, and else the code. -/
theorem readCode_ends (m : Scanner) :
    ((∃ m', readCode 1 m = .ok (none, m')) ↔ ∃ body rest, Closes m.source.unread body rest) ∧
      (∀ body rest, Closes m.source.unread body rest →
        readCode 1 m = .ok (none, m.take true (body ++ ['}']) ⟨none, rest⟩) ∧
          ∀ body' rest', Closes m.source.unread body' rest' → body' = body ∧ rest' = rest) ∧
      ((¬ ∃ body rest, Closes m.source.unread body rest) →
        (EndsInComment m.source.unread →
          readCode 1 m = .ok (some .comment, m.take true m.source.unread ⟨none, []⟩)) ∧
        (¬ EndsInComment m.source.unread →
          readCode 1 m = .ok (some .code, m.take true m.source.unread ⟨none, []⟩))) := by
  -- reading character by character does what the scan says
  have hread := readCode_eq 0 m
  rw [Nat.zero_add] at hread
  have hclosed {body rest : List Char} (h : Closes m.source.unread body rest) :
      readCode 1 m = .ok (none, m.take true (body ++ ['}']) ⟨none, rest⟩) := by
    rw [hread, code_of_closes h]
    rfl
  refine ⟨⟨?_, ?_⟩, ?_, ?_⟩
  · rintro ⟨m', hm'⟩
    rw [hread] at hm'
    cases hcode : code .plain 0 m.source.unread with
    | error what =>
      rw [hcode] at hm'
      cases hm'
    | ok r =>
      obtain ⟨body, hbody, -⟩ := code_eq_ok_iff.mp hcode
      exact ⟨body, r.2, hbody⟩
  · rintro ⟨body, rest, h⟩
    exact ⟨_, hclosed h⟩
  · exact fun body rest h => ⟨hclosed h, fun body' rest' h' => h'.unique h⟩
  · intro hopen
    constructor
    · intro hcomment
      rw [hread, code_of_endsInComment hcomment]
      rfl
    · intro hcomment
      -- there are only these three ways, and the first two are excluded
      cases course m.source.unread with
      | closed h => exact absurd ⟨_, _, h⟩ hopen
      | comment h => exact absurd h hcomment
      | cut h =>
        rw [hread, h]
        rfl

/-- The braces in the literal do not count, and the slash in front of the last brace begins no
comment. -/
theorem readCode_ends_nested :
    readCode 1 { source := .ofString "\x7b'\x7d'\x7d/\x7dx" } =
      .ok (none, ({ source := .ofString "\x7b'\x7d'\x7d/\x7dx" } : Scanner).take true
        "\x7b'\x7d'\x7d/\x7d".toList ⟨none, ['x']⟩) := by
  have hliteral : IsBody (some '}') ['\'', '}', '\''] :=
    .literal rfl (.char (by decide) (by decide) .close) .nil
  have hslash : IsBody (some '}') ['/'] := .slash .nil (by simp)
  have hbody : IsBody (some '}') "\x7b'\x7d'\x7d/".toList := .braces hliteral hslash
  exact ((readCode_ends _).2.1 _ _ ⟨hbody, rfl⟩).1

end Scanner

end YaccGrammar
