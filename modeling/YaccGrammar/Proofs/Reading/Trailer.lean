import YaccGrammar.Proofs.Reading.Effect
import YaccGrammar.Proofs.Reading.Run

/-!
# The trailing code

What follows the second `%%` of a file is taken as it stands, whatever it is, and nothing else of
the file depends on it.

## Main statements

- `is_of_phase_consume`: only a `%` leads to the trailing code.
- `parse_append_of_trailer`: the file with any text behind its second `%%`.
-/

namespace YaccGrammar.Reading

open Text Tokenizer

variable {t : Token} {s : State}

/-- Only a `%` makes a reaction lead to the trailing code. -/
theorem is_of_phase_react (h : (react t s).state.phase = .trailer) (hs : s.phase ≠ .trailer) :
    t.is '%' = true := by
  -- only the first `%` of the second mark is followed by the trailing code
  have hfrom : ∀ q : Phase, .trailer ∈ q.next → q = .trailerMark ∨ q = .trailer := by
    intro q
    cases q <;> decide
  have hmark : s.phase = .trailerMark := (hfrom _ (h ▸ phase_react_mem t s)).resolve_right hs
  simp only [react, hmark, reactTrailerMark, Reaction.state] at h
  split at h
  · assumption
  · exact absurd h hs

/-- Only a `%` leads to the trailing code. -/
theorem is_of_phase_consume (h : (consume t s).phase = .trailer) (hs : s.phase ≠ .trailer) :
    t.is '%' = true := by
  unfold consume at h
  cases hreact : react t s with
  | done s' =>
    rw [hreact] at h
    exact is_of_phase_react (by rw [hreact]; exact h) hs
  | again s' =>
    rw [hreact] at h
    -- a token that is read again is read in one of three phases, none of which is the trailer
    have hagain : s'.phase ≠ .trailer := by
      rcases phase_of_again hreact with hs' | hs' | hs' <;> simp [hs']
    exact is_of_phase_react h hagain

/-- In the trailing code a file may end, also where the code has been taken. -/
theorem isComplete_of_trailer (h : s.phase = .trailer) : s.isComplete = true := by
  simp [State.isComplete, h]

/-- A file may end behind its trailing code. -/
theorem isComplete_setTrailer (h : s.phase = .trailer) (code : String) (line : Nat) :
    (s.setTrailer code line).isComplete = true :=
  isComplete_of_trailer h

/-! ## Texts -/

/-- Where the trailing code begins, none of it has been taken. -/
theorem awaitsTrailer_of_phase {file : String} {ts : List Token} {k : Token}
    (hbefore : (consumeAll ts (.initial file)).phase ≠ .trailer)
    (htrailer : (consume k (consumeAll ts (.initial file))).phase = .trailer) :
    (consume k (consumeAll ts (.initial file))).awaitsTrailer = true := by
  have hframe := (frame_consume (t := k) hbefore).trans (frame_consumeAll hbefore)
  have hnone : (consume k (consumeAll ts (.initial file))).grammar.trailingCode = none :=
    congrArg Prod.snd hframe
  simp [State.awaitsTrailer, htrailer, hnone]

/-- A text that leads to the trailing code with its last character is read up to there, and whatever
follows it is taken as it stands. -/
theorem readText_append_of_trailer {file text : String} {ts : List Token} {k : Token}
    {t' : Tokenizer} (htakes : Takes (.ofString text) (ts ++ [k]) t')
    (hend : t'.source.unread = []) (hbefore : (consumeAll ts (.initial file)).phase ≠ .trailer)
    (htrailer : (consumeAll (ts ++ [k]) (.initial file)).phase = .trailer) (rest : String) :
    ∃ t'', readText file (text ++ rest) = .ok ⟨ts ++ [k], t'',
      (consumeAll (ts ++ [k]) (.initial file)).setTrailer rest (1 + newlines text.toList),
      none⟩ := by
  rw [consumeAll_concat] at htrailer ⊢
  -- the mark needs no look at what follows, and the other tokens are followed by the mark
  have hmark : needsLookahead k.first = false := by
    rw [Token.first_eq_of_is (is_of_phase_consume htrailer hbefore)]
    decide
  obtain ⟨t₁, hts, hnext⟩ := htakes.split_last
  have hlength := length_of_next hnext
  have hleft : t₁.source.unread ≠ [] := List.length_pos_iff.mp (by omega)
  have hunread : (Tokenizer.ofString (text ++ rest)).source.unread =
      (Tokenizer.ofString text).source.unread ++ rest.toList := String.toList_append
  obtain ⟨u₁, hu₁, hunread₁, hline₁⟩ := hts.append hleft hunread rfl
  obtain ⟨u', hnext', hunread', hline'⟩ := next_append hnext (Or.inr hmark) hunread₁ hline₁
  rw [hend, List.nil_append] at hunread'
  have hline : u'.line = 1 + newlines text.toList := by
    have hlines := htakes.line_eq
    rw [hend] at hlines
    exact hline'.trans hlines
  -- every token has a character, so there is a step left to find the end
  obtain ⟨n, hn⟩ : ∃ n, (text ++ rest).toList.length + 1 = ts.length + (n + 2) := by
    have htokens := hts.length_le
    have htext : (Tokenizer.ofString text).source.unread.length = text.toList.length := rfl
    rw [String.toList_append, List.length_append]
    exact ⟨text.toList.length + rest.toList.length - ts.length - 1, by omega⟩
  obtain ⟨t'', hrun⟩ := run_of_trailer (n := n) hnext' (awaitsTrailer_of_phase hbefore htrailer)
  refine ⟨t'', ?_⟩
  rw [readText, hn, run_of_takes hu₁ hbefore, hrun, hunread', hline, String.ofList_toList]
  rfl

/-- What follows the second `%%` of a file is taken as it stands, and nothing else depends on it.
The file is read whatever follows, and its symbols, its rules, its other codes and its diagnostics
are those of the file that ends there. -/
theorem parse_append_of_trailer {file text : String} {ts : List Token} {k : Token}
    {t' : Tokenizer} (htakes : Takes (.ofString text) (ts ++ [k]) t')
    (hend : t'.source.unread = []) (hbefore : (consumeAll ts (.initial file)).phase ≠ .trailer)
    (htrailer : (consumeAll (ts ++ [k]) (.initial file)).phase = .trailer) :
    ∃ d, parse file text = .ok (.ok d) ∧ ∀ rest : String, parse file (text ++ rest) =
      .ok (.ok { d with grammar := { d.grammar with
        trailingCode := some ⟨rest, 1 + newlines text.toList⟩ } }) := by
  let s : State := consumeAll (ts ++ [k]) (.initial file)
  have hparse (rest : String) : parse file (text ++ rest) =
      .ok (.ok ⟨(s.setTrailer rest (1 + newlines text.toList)).grammar,
        s.errors ++ s.grammar.verify s.file⟩) := by
    obtain ⟨t'', hread⟩ := readText_append_of_trailer htakes hend hbefore htrailer rest
    have hcomplete : (s.setTrailer rest (1 + newlines text.toList)).isComplete = true :=
      isComplete_setTrailer htrailer _ _
    rw [parse, hread, Except.map, Run.outcome]
    dsimp only
    rw [hcomplete]
    rfl
  -- the document is that of the file with nothing behind its mark
  have hempty := hparse ""
  rw [String.append_empty] at hempty
  exact ⟨_, hempty, fun rest => hparse rest⟩

/-- Not even what is not closed is missed in the trailing code. -/
theorem parse_append_of_trailer_unterminated :
    ∃ d, parse "list.y" "%\x7b%\x7d%%s:A;\n%%" = .ok (.ok d) ∧
      parse "list.y" ("%\x7b%\x7d%%s:A;\n%%" ++ " %% '\x7b \n /* ") =
        .ok (.ok { d with grammar := { d.grammar with
          trailingCode := some ⟨" %% '\x7b \n /* ", 2⟩ } }) := by
  let ts : List Token :=
    [⟨"%", 1⟩, ⟨"\x7b%\x7d", 1⟩, ⟨"%", 1⟩, ⟨"%", 1⟩, ⟨"s", 1⟩, ⟨":", 1⟩, ⟨"A", 1⟩, ⟨";", 1⟩, ⟨"%", 2⟩]
  have htakes : Takes (.ofString "%\x7b%\x7d%%s:A;\n%%") (ts ++ [⟨"%", 2⟩]) ⟨⟨none, []⟩, 2, 2⟩ :=
    .cons rfl <| .cons rfl <| .cons rfl <| .cons rfl <| .cons rfl <| .cons rfl <| .cons rfl <|
      .cons rfl <| .cons rfl <| .cons rfl <| .nil _
  have hbefore : (consumeAll ts (.initial "list.y")).phase ≠ .trailer := by decide
  have htrailer : (consumeAll (ts ++ [⟨"%", 2⟩]) (.initial "list.y")).phase = .trailer := by decide
  obtain ⟨d, hd, happend⟩ := parse_append_of_trailer htakes rfl hbefore htrailer
  exact ⟨d, hd, happend _⟩

end YaccGrammar.Reading
