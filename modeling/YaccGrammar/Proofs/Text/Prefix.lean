import YaccGrammar.Proofs.Text.Layout
import YaccGrammar.Proofs.Token

/-!
# Tokens of a beginning

The tokens of a text are also the first tokens of every text that begins with it, as long as the
last one of them needs no look at what follows.

## Main statements

- `Takes.append`: the tokens of a beginning, read from the longer text.
- `Takes.line_eq`: the line behind them.
-/

namespace YaccGrammar.Tokenizer

open Text

/-- The tokenizer finds the tokens one after the other. -/
inductive Takes : Tokenizer → List Token → Tokenizer → Prop where
  | nil (t : Tokenizer) : Takes t [] t
  | cons {t t₁ t' : Tokenizer} {k : Token} {ts : List Token} (hnext : t.next = .ok (.token k, t₁))
      (hts : Takes t₁ ts t') : Takes t (k :: ts) t'

variable {t t₁ t' u : Tokenizer} {k : Token} {ts : List Token}

/-- What was read when a token was found. -/
theorem reads_of_next (h : t.next = .ok (.token k, t')) : Reads t (.token k) t' := by
  obtain ⟨found, t'', hnext, hreads⟩ := reads_next t
  rw [h] at hnext
  cases hnext
  exact hreads

/-- A token that is found shortens the text. -/
theorem length_of_next (h : t.next = .ok (.token k, t')) :
    t'.source.unread.length < t.source.unread.length := by
  cases reads_of_next h with
  | token hunread _ _ hlexeme _ _ =>
    obtain ⟨u, -, hsplit⟩ := lexeme_ok hlexeme
    rw [hunread, hsplit, List.length_append, List.length_cons, List.length_append]
    omega

/-- A token is found in front of any text that does not continue it. -/
theorem next_append (h : t.next = .ok (.token k, t')) {rest : List Char}
    (hend : t'.source.unread ≠ [] ∨ needsLookahead k.first = false)
    (hunread : u.source.unread = t.source.unread ++ rest) (hline : u.line = t.line) :
    ∃ u', u.next = .ok (.token k, u') ∧ u'.source.unread = t'.source.unread ++ rest ∧
      u'.line = t'.line := by
  cases reads_of_next h with
  | @token gap c s _ _ htext hgap hbegins hlexeme hk ht' =>
    obtain ⟨v, hv, hsplit⟩ := lexeme_ok hlexeme
    rw [Token.first_of_text hv] at hend
    have hbegins' : Begins c (s ++ rest) := by
      refine ⟨hbegins.1, ?_⟩
      rintro d w hd ⟨rfl, hd'⟩
      -- a slash is all of its token, and the text went on behind it
      have hs : s ≠ [] := by
        have hslash : lexeme '/' s = .ok (['/'], s) := rfl
        rw [hslash, Except.ok.injEq, Prod.mk.injEq] at hlexeme
        rw [hlexeme.2]
        exact hend.resolve_right (by decide)
      cases s with
      | nil => exact hs rfl
      | cons e s =>
        obtain ⟨rfl, -⟩ := List.cons.inj hd
        exact hbegins.2 e s rfl ⟨rfl, hd'⟩
    have hlexeme' : lexeme c (s ++ rest) = .ok (k.text.toList, t'.source.unread ++ rest) := by
      refine lexeme_append_of_ok hlexeme fun hleft d w _ hword => ?_
      have hlook := hend.resolve_left (not_not_intro hleft)
      simp [needsLookahead, hword] at hlook
    rw [htext, List.append_assoc, List.cons_append] at hunread
    obtain ⟨u', hnext, hunread', hline'⟩ := next_of_begins hunread hgap hbegins' hlexeme'
    have hk' : (⟨String.ofList k.text.toList, u.line + newlines gap⟩ : Token) = k := by
      rw [String.ofList_toList, hline, ← hk]
    rw [hk'] at hnext
    exact ⟨u', hnext, hunread', by rw [hline', hline, ht', hk]⟩

namespace Takes

/-- Every token takes a character at least. -/
theorem length_le (h : Takes t ts t') :
    ts.length + t'.source.unread.length ≤ t.source.unread.length := by
  induction h with
  | nil t => simp
  | cons hnext _ ih =>
    have := length_of_next hnext
    rw [List.length_cons]
    omega

/-- The line moves on with the line breaks that are read. -/
theorem line_eq (h : Takes t ts t') :
    t'.line + newlines t'.source.unread = t.line + newlines t.source.unread := by
  induction h with
  | nil t => rfl
  | cons hnext _ ih =>
    rw [ih]
    cases reads_of_next hnext with
    | @token gap c s _ _ hunread _ _ hlexeme hk ht₁ =>
      obtain ⟨v, hv, hsplit⟩ := lexeme_ok hlexeme
      have hpiece : c :: s = (c :: v) ++ _ := congrArg (c :: ·) hsplit
      rw [ht₁, hk, hunread, hpiece, hv, newlines_append, newlines_append]
      omega

/-- The tokens of a beginning are found in front of any text, where something is left to show the
end of the last one. -/
theorem append (h : Takes t ts t') (hend : t'.source.unread ≠ []) {rest : List Char}
    (hunread : u.source.unread = t.source.unread ++ rest) (hline : u.line = t.line) :
    ∃ u', Takes u ts u' ∧ u'.source.unread = t'.source.unread ++ rest ∧ u'.line = t'.line := by
  induction h generalizing u with
  | nil t => exact ⟨u, .nil u, hunread, hline⟩
  | @cons t t₁ t' k ts hnext hts ih =>
    have hleft : t₁.source.unread ≠ [] := by
      have hlength := hts.length_le
      have hpos := List.length_pos_iff.mpr hend
      exact List.length_pos_iff.mp (by omega)
    obtain ⟨u₁, hu, hunread₁, hline₁⟩ := next_append hnext (Or.inl hleft) hunread hline
    obtain ⟨u', hu', hunread', hline'⟩ := ih hend hunread₁ hline₁
    exact ⟨u', .cons hu hu', hunread', hline'⟩

/-- The last token is found behind the others. -/
theorem split_last (h : Takes t (ts ++ [k]) t') :
    ∃ t₁, Takes t ts t₁ ∧ t₁.next = .ok (.token k, t') := by
  induction ts generalizing t with
  | nil =>
    cases h with
    | cons hnext hts =>
      cases hts
      exact ⟨t, .nil t, hnext⟩
  | cons l ts ih =>
    cases h with
    | cons hnext hts =>
      obtain ⟨t₁, hts₁, hlast⟩ := ih hts
      exact ⟨t₁, .cons hnext hts₁, hlast⟩

end Takes

end YaccGrammar.Tokenizer
