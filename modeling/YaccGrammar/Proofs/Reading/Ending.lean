import YaccGrammar.Proofs.Reading.Trailer

/-!
# Where reading ends

A text is read in one of three ways: all of it is cut into tokens, or something in it is not closed,
or its tokens lead to the trailing code, which takes the rest. Which one it is follows from the
tokens alone, and it is one of them for every text.

## Main statements

- `Found.readText_of_nothing`, `Found.readText_of_cut`, `Found.exists_readText_of_trailer`: what is
  read in each of the ways.
- `exists_ends`: every text is read to one of the ends.
-/

namespace YaccGrammar.Tokenizer

variable {t t₁ t' : Tokenizer} {k : Token} {ts : List Token}

/-- A token that is found behind others is the last of them. -/
theorem Takes.concat (h : Takes t ts t₁) (hnext : t₁.next = .ok (.token k, t')) :
    Takes t (ts ++ [k]) t' := by
  induction h with
  | nil t => exact .cons hnext (.nil _)
  | cons hfirst _ ih => exact .cons hfirst (ih hnext)

end YaccGrammar.Tokenizer

namespace YaccGrammar.Reading

open Text Tokenizer

/-- The tokens of a text up to where it ends or is cut, none of which leads to the trailing code. -/
structure Found (file text : String) (ts : List Token) (t : Tokenizer) : Prop where
  takes : Takes (.ofString text) ts t
  phase_ne : (consumeAll ts (.initial file)).phase ≠ .trailer

/-- How the reading of a text ends, and what has been read then. -/
inductive Ends (file text : String) : Run → Prop where
  /-- Nothing is left. -/
  | finished {ts : List Token} {t t' : Tokenizer} (hfound : Found file text ts t)
      (hnext : t.next = .ok (.nothing, t')) :
      Ends file text ⟨ts, t', consumeAll ts (.initial file), none⟩
  /-- Something is not closed. -/
  | cut {ts : List Token} {t t' : Tokenizer} {what : Unterminated} (hfound : Found file text ts t)
      (hnext : t.next = .ok (.cut what, t')) :
      Ends file text
        ⟨ts, t', (consumeAll ts (.initial file)).report t'.startLine (.unterminated what),
          some what⟩
  /-- The last token leads to the trailing code. -/
  | trailing {ts : List Token} {k : Token} {t t' t'' : Tokenizer} (hfound : Found file text ts t)
      (hnext : t.next = .ok (.token k, t'))
      (htrailer : (consume k (consumeAll ts (.initial file))).phase = .trailer) :
      Ends file text ⟨ts ++ [k], t'', (consume k (consumeAll ts (.initial file))).setTrailer
        (String.ofList t'.source.unread) t'.line, none⟩

variable {file text : String}

/-! ## Every text -/

/-- A run has as many steps as it needs for the tokens that are found, and at least one more. -/
theorem Found.length_lt {ts : List Token} {t : Tokenizer} (h : Found file text ts t) :
    ∃ n, text.toList.length + 1 = ts.length + (n + 1) ∧ t.source.unread.length ≤ n := by
  have hlength := h.takes.length_le
  have htext : (Tokenizer.ofString text).source.unread.length = text.toList.length := rfl
  exact ⟨text.toList.length - ts.length, by omega, by omega⟩

/-- A text whose tokens are all found is read to its end. -/
theorem Found.readText_of_nothing {ts : List Token} {t t' : Tokenizer} (h : Found file text ts t)
    (hnext : t.next = .ok (.nothing, t')) :
    readText file text = .ok ⟨ts, t', consumeAll ts (.initial file), none⟩ := by
  obtain ⟨n, hn, -⟩ := h.length_lt
  -- the step behind the last token finds the end of the text
  have hstop : run (n + 1) t (consumeAll ts (.initial file)) =
      .ok ⟨[], t', consumeAll ts (.initial file), none⟩ := by
    rw [run, hnext]
    rfl
  rw [readText, hn, run_of_takes h.takes h.phase_ne, hstop]
  simp [Except.map]

/-- A text that does not close something is read up to there. -/
theorem Found.readText_of_cut {ts : List Token} {t t' : Tokenizer} {what : Unterminated}
    (h : Found file text ts t) (hnext : t.next = .ok (.cut what, t')) :
    readText file text = .ok ⟨ts, t',
      (consumeAll ts (.initial file)).report t'.startLine (.unterminated what), some what⟩ := by
  obtain ⟨n, hn, -⟩ := h.length_lt
  have hstop : run (n + 1) t (consumeAll ts (.initial file)) = .ok ⟨[], t',
      (consumeAll ts (.initial file)).report t'.startLine (.unterminated what), some what⟩ := by
    rw [run, hnext]
    rfl
  rw [readText, hn, run_of_takes h.takes h.phase_ne, hstop]
  simp [Except.map]

/-- A text that leads to the trailing code is read up to there, and the rest is taken. -/
theorem Found.exists_readText_of_trailer {ts : List Token} {k : Token} {t t' : Tokenizer}
    (h : Found file text ts t) (hnext : t.next = .ok (.token k, t'))
    (htrailer : (consume k (consumeAll ts (.initial file))).phase = .trailer) :
    ∃ t'', readText file text = .ok ⟨ts ++ [k], t'',
      (consume k (consumeAll ts (.initial file))).setTrailer (String.ofList t'.source.unread)
        t'.line, none⟩ := by
  obtain ⟨n, hn, hleft⟩ := h.length_lt
  -- the mark is a character of its own, so there is a step left behind it
  have hmark := length_of_next hnext
  obtain ⟨m, rfl⟩ : ∃ m, n = m + 1 := ⟨n - 1, by omega⟩
  obtain ⟨t'', hrun⟩ :=
    run_of_trailer (n := m) hnext (awaitsTrailer_of_phase h.phase_ne htrailer)
  refine ⟨t'', ?_⟩
  rw [readText, hn, run_of_takes h.takes h.phase_ne, hrun]
  rfl

/-- Behind tokens that do not lead to the trailing code, reading comes to one of the ends, for every
further token shortens the text. -/
theorem Found.exists_ends {ts : List Token} {t : Tokenizer} (h : Found file text ts t) :
    ∃ r, readText file text = .ok r ∧ Ends file text r := by
  obtain ⟨⟨found, t'⟩, hnext⟩ := t.next_isOk
  cases found with
  -- the text ends, or something in it does not
  | nothing => exact ⟨_, h.readText_of_nothing hnext, .finished h hnext⟩
  | cut what => exact ⟨_, h.readText_of_cut hnext, .cut h hnext⟩
  | token k =>
    by_cases htrailer : (consume k (consumeAll ts (.initial file))).phase = .trailer
    · obtain ⟨t'', hread⟩ := h.exists_readText_of_trailer hnext htrailer
      exact ⟨_, hread, .trailing h hnext htrailer⟩
    · -- the token belongs to those that have been found, and what is left is shorter
      have hmore : Found file text (ts ++ [k]) t' :=
        ⟨h.takes.concat hnext, by rwa [consumeAll_concat]⟩
      have hlength := length_of_next hnext
      exact hmore.exists_ends
termination_by t.source.unread.length

/-- Every text is read to one of the ends. -/
theorem exists_ends (file text : String) : ∃ r, readText file text = .ok r ∧ Ends file text r := by
  have hstart : Found file text [] (.ofString text) := ⟨.nil _, nofun⟩
  exact hstart.exists_ends

end YaccGrammar.Reading
