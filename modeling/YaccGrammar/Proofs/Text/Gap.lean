import Mathlib.Logic.Basic
import YaccGrammar.Text.Trivia

/-!
# Gaps

What stands between two tokens is a sequence of blanks and complete comments. Skipping passes over
exactly such a sequence, whatever follows it, and stops in front of a token. Only at the end of the
text a line comment may be left open.

## Main statements

- `skip_gap`, `skip_begins`: a gap is skipped, and a token is not.
- `exists_gap`: every text begins with a longest gap.
-/

namespace YaccGrammar.Text

/-- A blank or a complete comment. -/
inductive IsTrivium : List Char → Prop where
  | blank {c : Char} (hc : isBlank c = true) : IsTrivium [c]
  | lineComment {body : List Char} (hbody : '\n' ∉ body) :
      IsTrivium (['/', '/'] ++ body ++ ['\n'])
  | blockComment {body : List Char} (hbody : ¬ ['*', '/'] <:+: body) :
      IsTrivium (['/', '*'] ++ body ++ ['*', '/'])

/-- A sequence of blanks and complete comments. -/
inductive IsGap : List Char → Prop where
  | nil : IsGap []
  | cons {x gap : List Char} (hx : IsTrivium x) (hgap : IsGap gap) : IsGap (x ++ gap)

/-- A sequence of blanks and complete comments, and then a comment that ends with the text. -/
def IsOpenGap (s : List Char) : Prop :=
  ∃ gap body, IsGap gap ∧ '\n' ∉ body ∧ s = gap ++ (['/', '/'] ++ body)

/-- With `c` and `s` neither a blank nor a comment begins. -/
def Begins (c : Char) (s : List Char) : Prop :=
  isBlank c = false ∧ ∀ d u, s = d :: u → ¬ (c = '/' ∧ (d = '/' ∨ d = '*'))

/-- What follows a longest gap: nothing, a comment that the text does not close, or a token. -/
inductive Ending : List Char → Prop where
  | nil : Ending []
  | openLine {body : List Char} (hbody : '\n' ∉ body) : Ending ('/' :: '/' :: body)
  | openBlock {body : List Char} (hbody : ¬ ['*', '/'] <:+: body) : Ending ('/' :: '*' :: body)
  | token {c : Char} {s : List Char} (h : Begins c s) : Ending (c :: s)

/-- A gap may begin with a blank. -/
theorem IsGap.blank {c : Char} {gap : List Char} (hc : isBlank c = true) (hgap : IsGap gap) :
    IsGap (c :: gap) := .cons (.blank hc) hgap

/-- Blanks are a gap. -/
theorem IsGap.of_blanks {gap : List Char} (hgap : gap.all isBlank = true) : IsGap gap := by
  induction gap with
  | nil => exact .nil
  | cons c gap ih =>
    rw [List.all_cons, Bool.and_eq_true] at hgap
    exact .blank hgap.1 (ih hgap.2)

/-- The line breaks of two texts side by side. -/
theorem newlines_append (s u : List Char) : newlines (s ++ u) = newlines s + newlines u :=
  List.count_append

/-- A text without line breaks has none to count. -/
theorem newlines_eq_zero {s : List Char} (h : '\n' ∉ s) : newlines s = 0 :=
  List.count_eq_zero.mpr h

/-- The line breaks behind the first character, and the first one if it is one. -/
theorem newlines_cons (c : Char) (s : List Char) :
    newlines (c :: s) = newlines s + if c = '\n' then 1 else 0 := by
  simp [newlines, List.count_cons]

/-! ## Comments that end with the line -/

/-- A comment is skipped up to the line break. -/
theorem skip_lineComment {body : List Char} (hbody : '\n' ∉ body) (line mark : Nat)
    (s : List Char) :
    skip .lineComment line mark (body ++ '\n' :: s) = skip .outside (line + 1) mark s := by
  induction body with
  | nil => rw [List.nil_append, skip, if_pos rfl]
  | cons c body ih =>
    rw [List.mem_cons, not_or] at hbody
    rw [List.cons_append, skip, if_neg (Ne.symm hbody.1), ih hbody.2]

/-- A comment that lacks its line break is skipped to the end of the text. -/
theorem skip_openLine {body : List Char} (hbody : '\n' ∉ body) (line mark : Nat) :
    skip .lineComment line mark body = ⟨line, mark, [], true⟩ := by
  induction body with
  | nil => rw [skip]
  | cons c body ih =>
    rw [List.mem_cons, not_or] at hbody
    rw [skip, if_neg (Ne.symm hbody.1), ih hbody.2]

/-! ## Comments that end with `*/` -/

/-- Inside a comment a character is skipped where no `*/` begins. -/
theorem skip_blockComment_cons {c : Char} {s : List Char} (hend : ¬ ['*', '/'] <+: c :: s)
    (line mark : Nat) : skip .blockComment line mark (c :: s) =
      skip .blockComment (if c = '\n' then line + 1 else line) mark s := by
  rw [skip]
  rintro u rfl rfl
  exact hend ⟨u, rfl⟩

/-- A comment stays open behind its first character. -/
theorem not_end_of_cons {c : Char} {body : List Char} (hbody : ¬ ['*', '/'] <:+: c :: body) :
    ¬ ['*', '/'] <:+: body :=
  fun hlater => hbody (hlater.trans (List.suffix_cons c body).isInfix)

/-- The star behind a comment is no slash, so the comment does not end one character earlier. -/
theorem not_closed_of_open {c : Char} {body : List Char} (hbody : ¬ ['*', '/'] <:+: c :: body)
    (s : List Char) : ¬ ['*', '/'] <+: c :: (body ++ '*' :: '/' :: s) := by
  -- if the comment ended here, its own text would have a `*/` in it
  rintro ⟨u, hu⟩
  obtain ⟨rfl, htail⟩ := List.cons.inj hu
  cases body with
  | nil => exact absurd (List.cons.inj htail).1 (by decide)
  | cons d body =>
    obtain ⟨rfl, -⟩ := List.cons.inj htail
    exact hbody ⟨[], body, rfl⟩

/-- A comment is skipped up to the first `*/`. -/
theorem skip_blockComment {body : List Char} (hbody : ¬ ['*', '/'] <:+: body) (line mark : Nat)
    (s : List Char) : skip .blockComment line mark (body ++ '*' :: '/' :: s) =
      skip .outside (line + newlines body) mark s := by
  induction body generalizing line with
  | nil => rw [List.nil_append, skip]; rfl
  | cons c body ih =>
    rw [List.cons_append, skip_blockComment_cons (not_closed_of_open hbody s),
      ih (not_end_of_cons hbody), newlines_cons]
    split
    · congr 1
      omega
    · congr 1

/-- A comment that lacks its `*/` is skipped to the end of the text, which is no success. -/
theorem skip_openBlock {body : List Char} (hbody : ¬ ['*', '/'] <:+: body) (line mark : Nat) :
    skip .blockComment line mark body = ⟨line + newlines body, mark, [], false⟩ := by
  induction body generalizing line with
  | nil => rw [skip]; rfl
  | cons c body ih =>
    have hend : ¬ ['*', '/'] <+: c :: body := fun h => hbody h.isInfix
    rw [skip_blockComment_cons hend, ih (not_end_of_cons hbody), newlines_cons]
    split
    · congr 1
      omega
    · congr 1

/-- The first `*/` of a text. -/
theorem exists_blockComment {s : List Char} (h : ['*', '/'] <:+: s) :
    ∃ body rest, ¬ ['*', '/'] <:+: body ∧ s = body ++ '*' :: '/' :: rest := by
  induction s with
  | nil => simp at h
  | cons c s ih =>
    -- the first `*/` stands at the beginning, or it is the first one of the rest
    by_cases hstart : ['*', '/'] <+: c :: s
    · obtain ⟨rest, hrest⟩ := hstart
      exact ⟨[], rest, by simp, hrest.symm⟩
    · have hlater := (List.infix_cons_iff.mp h).resolve_left hstart
      obtain ⟨body, rest, hbody, rfl⟩ := ih hlater
      refine ⟨c :: body, rest, fun hc => ?_, rfl⟩
      rcases List.infix_cons_iff.mp hc with hc | hc
      · exact hstart (hc.trans (List.prefix_append (c :: body) ('*' :: '/' :: rest)))
      · exact hbody hc

/-! ## Skipping -/

/-- Outside of comments a blank is skipped, and anything else stops the skipping. -/
theorem skip_cons {c : Char} {s : List Char}
    (hcomment : ∀ d u, s = d :: u → ¬ (c = '/' ∧ (d = '/' ∨ d = '*'))) (line mark : Nat) :
    skip .outside line mark (c :: s) =
      if c = '\n' then skip .outside (line + 1) mark s
      else if isBlank c then skip .outside line mark s
      else ⟨line, mark, c :: s, true⟩ := by
  rw [skip]
  · exact fun u hc hs => hcomment '/' u hs ⟨hc, Or.inl rfl⟩
  · exact fun u hc hs => hcomment '*' u hs ⟨hc, Or.inr rfl⟩

/-- A token does not begin with a line break. -/
theorem Begins.ne_newline {c : Char} {s : List Char} (h : Begins c s) : c ≠ '\n' := by
  rintro rfl
  exact absurd h.1 (by decide)

/-- Skipping stops in front of a token. -/
theorem skip_begins {c : Char} {s : List Char} (h : Begins c s) (line mark : Nat) :
    skip .outside line mark (c :: s) = ⟨line, mark, c :: s, true⟩ := by
  rw [skip_cons h.2, if_neg h.ne_newline, h.1]
  rfl

/-- A blank is no slash. -/
theorem ne_slash_of_isBlank {c : Char} (h : isBlank c = true) : c ≠ '/' := by
  rintro rfl
  revert h
  decide

/-- A blank is skipped, and counted if it is a line break. -/
theorem skip_blank {c : Char} (hc : isBlank c = true) (line mark : Nat) (s : List Char) :
    skip .outside line mark (c :: s) = skip .outside (line + newlines [c]) mark s := by
  rw [skip_cons fun _ _ _ h => ne_slash_of_isBlank hc h.1, if_pos hc, newlines_cons]
  split <;> rfl

/-- A blank or a comment is skipped. -/
theorem skip_trivium {x : List Char} (hx : IsTrivium x) (line mark : Nat) (s : List Char) :
    ∃ mark', skip .outside line mark (x ++ s) = skip .outside (line + newlines x) mark' s := by
  cases hx with
  | blank hc => exact ⟨mark, skip_blank hc line mark s⟩
  | @lineComment body hbody =>
    -- the line is remembered as the one on which a comment began
    refine ⟨line, ?_⟩
    have htext : ['/', '/'] ++ body ++ ['\n'] ++ s = '/' :: '/' :: (body ++ '\n' :: s) := by simp
    rw [htext, skip, skip_lineComment hbody, newlines_append, newlines_append,
      newlines_eq_zero hbody]
    rfl
  | @blockComment body hbody =>
    refine ⟨line, ?_⟩
    have htext : ['/', '*'] ++ body ++ ['*', '/'] ++ s =
        '/' :: '*' :: (body ++ '*' :: '/' :: s) := by simp
    have hmarks : newlines ['/', '*'] = 0 ∧ newlines ['*', '/'] = 0 := by decide
    rw [htext, skip, skip_blockComment hbody, newlines_append, newlines_append, hmarks.1, hmarks.2,
      Nat.zero_add, Nat.add_zero]

/-- A gap is skipped, whatever follows it. -/
theorem skip_gap {gap : List Char} (hgap : IsGap gap) (line mark : Nat) (s : List Char) :
    ∃ mark', skip .outside line mark (gap ++ s) = skip .outside (line + newlines gap) mark' s := by
  induction hgap generalizing line mark with
  | nil => exact ⟨mark, rfl⟩
  | @cons x gap hx _ ih =>
    obtain ⟨mark₁, hx⟩ := skip_trivium hx line mark (gap ++ s)
    obtain ⟨mark', hgap⟩ := ih (line + newlines x) mark₁
    refine ⟨mark', ?_⟩
    rw [List.append_assoc, hx, hgap, newlines_append, Nat.add_assoc]

/-- Every text begins with a longest gap. -/
theorem exists_gap (s : List Char) : ∃ gap rest, s = gap ++ rest ∧ IsGap gap ∧ Ending rest := by
  -- a blank or a comment at the beginning leaves a shorter text
  induction hn : s.length using Nat.strongRecOn generalizing s with
  | ind n ih =>
    -- whatever is skipped first, the rest is shorter
    have hstep {x u : List Char} (hs : s = x ++ u) (hx : IsTrivium x) (hne : x ≠ []) :
        ∃ gap rest, s = gap ++ rest ∧ IsGap gap ∧ Ending rest := by
      have hpos : 0 < x.length := List.length_pos_iff.mpr hne
      have hlt : u.length < n := by
        rw [← hn, hs, List.length_append]
        omega
      obtain ⟨gap, rest, hu, hgap, hrest⟩ := ih u.length hlt u rfl
      exact ⟨x ++ gap, rest, by rw [hs, hu, List.append_assoc], .cons hx hgap, hrest⟩
    have hstop (h : Ending s) : ∃ gap rest, s = gap ++ rest ∧ IsGap gap ∧ Ending rest :=
      ⟨[], s, rfl, .nil, h⟩
    cases s with
    | nil => exact hstop .nil
    | cons c s =>
      by_cases hblank : isBlank c = true
      · exact hstep rfl (.blank hblank) (List.cons_ne_nil _ _)
      by_cases hcomment : ∀ d u, s = d :: u → ¬ (c = '/' ∧ (d = '/' ∨ d = '*'))
      · exact hstop (.token ⟨Bool.eq_false_iff.mpr hblank, hcomment⟩)
      simp only [not_forall, Classical.not_not] at hcomment
      -- a comment of either kind, which the text closes or not
      obtain ⟨d, u, rfl, rfl, rfl | rfl⟩ := hcomment
      · by_cases hline : '\n' ∈ u
        · obtain ⟨body, rest, rfl, hbody⟩ := List.eq_append_cons_of_mem hline
          exact hstep (u := rest) (by simp) (.lineComment hbody) (by simp)
        · exact hstop (.openLine hline)
      · by_cases hblock : ['*', '/'] <:+: u
        · obtain ⟨body, rest, hbody, rfl⟩ := exists_blockComment hblock
          exact hstep (u := rest) (by simp) (.blockComment hbody) (by simp)
        · exact hstop (.openBlock hblock)

end YaccGrammar.Text
