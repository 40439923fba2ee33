import YaccGrammar.Proofs.Text.Gap
import YaccGrammar.Token.Tokenizer

/-!
# Pieces

What the tokenizer makes of a text at one call: the gap in front of the next token is skipped, the
token is taken as far as it goes, and the line breaks in both of them are counted.

## Main statements

- `next_of_begins`: a token behind a gap is read.
- `reads_next`: every call reads a piece of the text, and nothing is lost.
-/

namespace YaccGrammar

namespace Text

/-- A token begins with its first character. -/
theorem lexeme_ok {c : Char} {s text rest : List Char} (h : lexeme c s = .ok (text, rest)) :
    ∃ u, text = c :: u ∧ s = u ++ rest := by
  have hcons {r : Scan} (h : Scan.cons c r = .ok (text, rest)) : ∃ u, text = c :: u := by
    obtain e | ⟨u, rest'⟩ := r
    · cases h
    · cases h
      exact ⟨u, rfl⟩
  -- whatever the token is, its first character is put in front of the rest of it
  have hfirst : ∃ u, text = c :: u := by
    unfold lexeme at h
    split at h
    · exact hcons h
    split at h
    · exact hcons h
    split at h
    · exact hcons h
    split at h
    · exact hcons h
    · cases h
      exact ⟨[], rfl⟩
  obtain ⟨u, rfl⟩ := hfirst
  have hsplits := lexeme_splits c s
  rw [h] at hsplits
  exact ⟨u, rfl, (List.cons.inj hsplits).2.symm⟩

end Text

namespace Tokenizer

open Text

/-- What a call reads, and what it leaves. -/
inductive Reads (t : Tokenizer) : Found → Tokenizer → Prop where
  /-- A token and the gap in front of it. -/
  | token {gap : List Char} {c : Char} {s : List Char} {k : Token} {t' : Tokenizer}
      (hunread : t.source.unread = gap ++ c :: s) (hgap : IsGap gap) (hbegins : Begins c s)
      (hlexeme : lexeme c s = .ok (k.text.toList, t'.source.unread))
      (hline : k.line = t.line + newlines gap)
      (hline' : t'.line = k.line + newlines k.text.toList) : Reads t (.token k) t'
  /-- A gap at the end of the text. -/
  | nothing {t' : Tokenizer} (hgap : IsGap t.source.unread ∨ IsOpenGap t.source.unread)
      (hunread : t'.source.unread = [])
      (hline : t'.line = t.line + newlines t.source.unread) : Reads t .nothing t'
  /-- All of a text that does not close a construct. -/
  | cut {what : Unterminated} {t' : Tokenizer} (hunread : t'.source.unread = [])
      (hline : t'.line = t.line + newlines t.source.unread) : Reads t (.cut what) t'

/-- What is handed back is still unread. -/
theorem unread_handBack (s : List Char) : (Reader.mk s.head? s.tail).unread = s := by
  cases s with
  | nil => rfl
  | cons c s => rfl

variable {t t' : Tokenizer} {gap rest text : List Char}

/-- A token that stands behind a gap is read. -/
theorem next_of_begins {c : Char} {s : List Char} (hunread : t.source.unread = gap ++ c :: s)
    (hgap : IsGap gap) (hbegins : Begins c s) (hlexeme : lexeme c s = .ok (text, rest)) :
    ∃ t', t.next = .ok (.token ⟨String.ofList text, t.line + newlines gap⟩, t') ∧
      t'.source.unread = rest ∧ t'.line = t.line + newlines gap + newlines text := by
  -- the gap is skipped, and skipping stops in front of the token
  obtain ⟨mark, hskip⟩ := skip_gap hgap t.line t.startLine (c :: s)
  rw [← hunread, skip_begins hbegins] at hskip
  unfold next
  simp only [hskip, hlexeme]
  -- a word is known to end only by the character behind it, which is handed back
  cases needsLookahead c with
  | true =>
    simp only [if_true, handBack_eq]
    exact ⟨_, rfl, unread_handBack rest, rfl⟩
  | false => exact ⟨_, rfl, rfl, rfl⟩

/-- A token that is not closed is all that is read. -/
theorem next_of_error {c : Char} {s : List Char} {what : Unterminated}
    (hunread : t.source.unread = gap ++ c :: s) (hgap : IsGap gap) (hbegins : Begins c s)
    (hlexeme : lexeme c s = .error what) :
    ∃ t', t.next = .ok (.cut what, t') ∧ t'.source.unread = [] ∧
      t'.line = t.line + newlines gap + newlines s ∧ t'.startLine = t.line + newlines gap := by
  obtain ⟨mark, hskip⟩ := skip_gap hgap t.line t.startLine (c :: s)
  rw [← hunread, skip_begins hbegins] at hskip
  unfold next
  simp only [hskip, hlexeme]
  exact ⟨_, rfl, rfl, rfl, rfl⟩

/-- A comment up to the end of its line may be left open. -/
theorem next_of_openLine {body : List Char} (hunread : t.source.unread = gap ++ '/' :: '/' :: body)
    (hgap : IsGap gap) (hbody : '\n' ∉ body) :
    ∃ t', t.next = .ok (.nothing, t') ∧ t'.source.unread = [] ∧
      t'.line = t.line + newlines gap := by
  obtain ⟨mark, hskip⟩ := skip_gap hgap t.line t.startLine ('/' :: '/' :: body)
  have hend := skip_openLine hbody (t.line + newlines gap) (t.line + newlines gap)
  rw [← hunread, skip, hend] at hskip
  unfold next
  simp only [hskip]
  exact ⟨_, rfl, rfl, rfl⟩

/-- A comment that is not closed begins on the line that is remembered. -/
theorem next_of_openBlock {body : List Char}
    (hunread : t.source.unread = gap ++ '/' :: '*' :: body) (hgap : IsGap gap)
    (hbody : ¬ ['*', '/'] <:+: body) :
    ∃ t', t.next = .ok (.cut .comment, t') ∧ t'.source.unread = [] ∧
      t'.line = t.line + newlines gap + newlines body ∧ t'.startLine = t.line + newlines gap := by
  obtain ⟨mark, hskip⟩ := skip_gap hgap t.line t.startLine ('/' :: '*' :: body)
  have hend := skip_openBlock hbody (t.line + newlines gap) (t.line + newlines gap)
  rw [← hunread, skip, hend] at hskip
  unfold next
  simp only [hskip]
  exact ⟨_, rfl, rfl, rfl, rfl⟩

/-- Every call reads a piece of the text. -/
theorem reads_next (t : Tokenizer) : ∃ found t', t.next = .ok (found, t') ∧ Reads t found t' := by
  obtain ⟨gap, rest, hunread, hgap, hrest⟩ := exists_gap t.source.unread
  -- by what follows the longest gap
  cases hrest with
  | nil =>
    obtain ⟨mark, hskip⟩ := skip_gap hgap t.line t.startLine []
    rw [← hunread] at hskip
    rw [List.append_nil] at hunread
    have hnext : t.next = .ok (.nothing, ⟨⟨none, []⟩, t.line + newlines gap, mark⟩) := by
      simp only [next, hskip, skip]
    exact ⟨_, _, hnext, .nothing (Or.inl (hunread ▸ hgap)) rfl (by rw [hunread])⟩
  | @openLine body hbody =>
    obtain ⟨t', hnext, hunread', hline⟩ := next_of_openLine hunread hgap hbody
    refine ⟨_, t', hnext, .nothing (Or.inr ⟨gap, body, hgap, hbody, hunread⟩) hunread' ?_⟩
    rw [hline, hunread, newlines_append, newlines_cons, newlines_cons, newlines_eq_zero hbody]
    rfl
  | @openBlock body hbody =>
    obtain ⟨t', hnext, hunread', hline, -⟩ := next_of_openBlock hunread hgap hbody
    refine ⟨_, t', hnext, .cut hunread' ?_⟩
    rw [hline, hunread, newlines_append, newlines_cons, newlines_cons, ← Nat.add_assoc]
    rfl
  | @token c s hbegins =>
    -- a token does not begin with a line break
    have hlines : newlines (c :: s) = newlines s := by
      rw [newlines_cons, if_neg hbegins.ne_newline, Nat.add_zero]
    cases hlexeme : lexeme c s with
    | error what =>
      obtain ⟨t', hnext, hunread', hline, -⟩ := next_of_error hunread hgap hbegins hlexeme
      refine ⟨_, t', hnext, .cut hunread' ?_⟩
      rw [hline, hunread, newlines_append, hlines, Nat.add_assoc]
    | ok r =>
      obtain ⟨text, rest⟩ := r
      obtain ⟨t', hnext, hunread', hline⟩ := next_of_begins hunread hgap hbegins hlexeme
      refine ⟨_, t', hnext, .token hunread hgap hbegins ?_ rfl ?_⟩
      · rw [String.toList_ofList, hunread', hlexeme]
      · rw [hline, String.toList_ofList]

end Tokenizer

end YaccGrammar
