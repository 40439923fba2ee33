import YaccGrammar.Proofs.Reading.Ending
import YaccGrammar.Proofs.Reading.Reports
import YaccGrammar.Proofs.Reading.Sources
import YaccGrammar.Proofs.Text.Placement
import YaccGrammar.Proofs.Undefined

/-!
# Real lines

Every line that comes with a reading is a line of the text, and it is the right one. Tokens know the
lines on which they stand. Rules and codes have them from tokens; problems are reported on the lines
of the tokens that bring them to light, in the order of the tokens, and the last one where the text
is not closed or ends; and a nonterminal without rules is reported on the line of a rule that uses
it.

## Main statements

- `ascending_errors`: the lines on which problems are reported.
- `Ends.exists_takes`: what a reading holds, told by the tokens that were taken.
- `realLines_of_parse`: all lines, for every text.
-/

namespace YaccGrammar

open Text Tokenizer

/-- The lines of diagnostics, in their order. -/
def linesOf (es : List Diagnostic) : List Nat := es.map fun e => e.location.line

namespace Reading

variable {file text : String} {ts : List Token} {t t' : Tokenizer} {r : Run}

/-! ## Problems with tokens -/

/-- What a reading reports belongs to a phase, so it is no finding about the whole grammar. -/
theorem phases_ne_nil_of_mem_errors {e : Diagnostic}
    (he : e ∈ (consumeAll ts (.initial file)).errors) : e.problem.phases ≠ [] := by
  -- as an invariant of the states, so that the induction over the tokens goes through
  let P (s : State) : Prop := ∀ e ∈ s.errors, e.problem.phases ≠ []
  have hreact (t : Token) (s : State) (hs : P s) : P (react t s).state := by
    intro e he
    cases reports_react t s with
    | nothing herrors => exact hs e (herrors ▸ he)
    | one p hp herrors =>
      rw [herrors, List.mem_append, List.mem_singleton] at he
      rcases he with hold | rfl
      · exact hs e hold
      · exact List.ne_nil_of_mem hp
  have hinitial : P (.initial file) := nofun
  exact consumeAll_induction hreact ts hinitial e he

/-- The lines of what one more token brings to light. -/
theorem exists_lines_concat (file : String) (ts : List Token) (t : Token) :
    ∃ n, linesOf (consumeAll (ts ++ [t]) (.initial file)).errors =
      linesOf (consumeAll ts (.initial file)).errors ++ List.replicate n t.line := by
  -- one token may bring several problems to light, all of them on its own line
  obtain ⟨problems, herrors, -⟩ := (effect_consume t (consumeAll ts (.initial file))).errors
  refine ⟨problems.length, ?_⟩
  rw [consumeAll_concat]
  simp [herrors, linesOf, Function.comp_def, List.map_const']

/-- A problem is reported on the line of a token. -/
theorem mem_lines_of_mem_errors {n : Nat}
    (hn : n ∈ linesOf (consumeAll ts (.initial file)).errors) : n ∈ ts.map Token.line := by
  induction ts using List.reverseRecOn with
  | nil => simp [linesOf, consumeAll, State.initial] at hn
  | append_singleton ts t ih =>
    obtain ⟨m, hlines⟩ := exists_lines_concat file ts t
    rw [hlines, List.mem_append] at hn
    rw [List.map_append, List.mem_append]
    rcases hn with hold | hnew
    · exact .inl (ih hold)
    · exact .inr (by simp [List.eq_of_mem_replicate hnew])

/-- Problems with tokens are reported in the order of the tokens. -/
theorem ascending_errors {s : List Char} (h : Ascending s (ts.map Token.line)) :
    Ascending s (linesOf (consumeAll ts (.initial file)).errors) where
  pairwise := by
    have hpairwise := h.pairwise
    clear h
    induction ts using List.reverseRecOn with
    | nil => exact .nil
    | append_singleton ts t ih =>
      obtain ⟨m, hlines⟩ := exists_lines_concat file ts t
      rw [List.map_append, List.pairwise_append] at hpairwise
      obtain ⟨hold, -, hlast⟩ := hpairwise
      rw [hlines, List.pairwise_append]
      -- the new lines are equal to each other and not below any earlier line
      refine ⟨ih hold, ?_, ?_⟩
      · simp [List.pairwise_replicate]
      · intro n hn n' hn'
        rw [List.eq_of_mem_replicate hn']
        exact hlast n (mem_lines_of_mem_errors hn) t.line (by simp)
  range n hn := h.range n (mem_lines_of_mem_errors hn)

/-! ## Readings -/

/-- All lines that come with a reading are real. -/
structure RealLines (file text : String) (r : Run) : Prop where
  /-- The tokens stand in the text, one behind the other and on the lines that they know. -/
  tokens : ∃ pieces rest, pieces.map Prod.snd = r.tokens ∧ Placed text.toList pieces rest
  /-- The lines of all that is reported while reading, the fatal problem included. -/
  errors : Ascending text.toList (linesOf r.errors)
  rules : Ascending text.toList (r.state.grammar.rules.map Rule.line)
  sources : Sources file r.tokens r.state.grammar
  /-- A code is on the line of its opening brace. -/
  codes : ∀ c ∈ r.state.grammar.codes, OnLine text.toList '{' c.line

/-- The last line of all is that of the fatal problem. -/
theorem ascending_errors_report (htakes : Takes (.ofString text) ts t) {line : Nat}
    (hfrom : t.line ≤ line) (hto : line ≤ t.line + newlines t.source.unread) (p : Problem) :
    Ascending text.toList (linesOf ((consumeAll ts (.initial file)).report line p).errors) := by
  obtain ⟨pieces, rfl, hplaced, hline⟩ := htakes.exists_placed
  -- where the reading stopped, the lines read and those left make up the text
  have hend := htakes.line_eq
  have hlines : linesOf ((consumeAll (pieces.map Prod.snd) (.initial file)).report line p).errors =
      linesOf (consumeAll (pieces.map Prod.snd) (.initial file)).errors ++ [line] := by
    simp [linesOf, State.report]
  rw [hlines]
  apply (ascending_errors hplaced.ascending).concat
  · intro n hn
    obtain ⟨k, hk, rfl⟩ := List.mem_map.mp (mem_lines_of_mem_errors hn)
    have hle := hplaced.line_le hk
    omega
  · omega
  · change t.line + newlines t.source.unread = 1 + newlines text.toList at hend
    omega

/-- What is reported while reading: problems with the tokens that were taken, and behind them
perhaps a fatal one with what is left. -/
inductive Reported (file : String) (ts : List Token) (t : Tokenizer) (es : List Diagnostic) :
    Prop where
  | tokens (h : es = (consumeAll ts (.initial file)).errors)
  | fatal {line : Nat} {p : Problem} (hfatal : p.isFatal = true) (hfrom : t.line ≤ line)
      (hto : line ≤ t.line + newlines t.source.unread)
      (h : es = ((consumeAll ts (.initial file)).report line p).errors)

/-- However a reading ends, the tokens that were taken tell what it holds. -/
theorem Ends.exists_takes (hr : Ends file text r) :
    ∃ t, Takes (.ofString text) r.tokens t ∧ Reported file r.tokens t r.errors ∧
      Sources file r.tokens r.state.grammar := by
  cases hr with
  | @finished ts t t' hfound hnext =>
    refine ⟨t, hfound.takes, ?_, sources_consumeAll file ts⟩
    unfold Run.errors
    split
    · exact .tokens rfl
    · -- the text ends too early, on its last line
      have hlast := line_of_nothing hnext
      exact .fatal rfl (by omega) hlast.le rfl
  | @cut ts t t' what hfound hnext =>
    obtain ⟨hfrom, hto⟩ := startLine_of_cut hnext
    exact ⟨t, hfound.takes, .fatal rfl hfrom hto rfl, sources_consumeAll file ts⟩
  | @trailing ts k t t' t'' hfound hnext htrailer =>
    rw [← consumeAll_concat] at htrailer ⊢
    -- the trailing code changes neither problems nor rules nor other codes
    have hsources := sources_consumeAll file (ts ++ [k])
    refine ⟨t', hfound.takes.concat hnext, .tokens ?_, ⟨hsources.rule, hsources.lines,
      hsources.code, hsources.importCode, hsources.unionCode⟩⟩
    simp only [Run.errors, isComplete_setTrailer htrailer, Bool.or_true, if_true]
    rfl

/-- However a reading ends, its lines are real. -/
theorem Ends.realLines (hr : Ends file text r) : RealLines file text r := by
  obtain ⟨t, htakes, hreported, hsources⟩ := hr.exists_takes
  obtain ⟨pieces, htokens, hplaced, -⟩ := htakes.exists_placed
  have hascending : Ascending text.toList (r.tokens.map Token.line) := htokens ▸ hplaced.ascending
  refine ⟨⟨pieces, _, htokens, hplaced⟩, ?_, hascending.sublist hsources.lines, hsources, ?_⟩
  · cases hreported with
    | tokens h =>
      rw [h]
      exact ascending_errors hascending
    | fatal hfatal hfrom hto h =>
      rw [h]
      -- the fatal problem is behind the last token, so its line comes last
      exact ascending_errors_report htakes hfrom hto _
  · intro c hc
    obtain ⟨k, hk, hfirst, hline⟩ := hsources.exists_token_of_code hc
    rw [hline]
    exact hplaced.onLine_first (htokens ▸ hk) hfirst (by decide)

/-- What a reading reports belongs to a phase, or it is the fatal problem. -/
theorem Ends.phases_ne_nil_or_isFatal (hr : Ends file text r) {e : Diagnostic}
    (he : e ∈ r.errors) : e.problem.phases ≠ [] ∨ e.isFatal = true := by
  obtain ⟨t, -, hreported, -⟩ := hr.exists_takes
  cases hreported with
  | tokens h =>
    rw [h] at he
    exact .inl (phases_ne_nil_of_mem_errors he)
  | fatal hfatal _ _ h =>
    rw [h, State.report, List.mem_append, List.mem_singleton] at he
    rcases he with htoken | rfl
    · exact .inl (phases_ne_nil_of_mem_errors htoken)
    · exact .inr hfatal

/-- A document is the grammar that was read, and the findings on it follow the problems. -/
theorem document_eq_of_outcome {d : Document} (hd : r.outcome = .ok d) :
    d = ⟨r.state.grammar, r.errors ++ r.state.grammar.verify r.state.file⟩ := by
  unfold Run.outcome at hd
  split at hd
  · next hcomplete =>
    rw [Bool.and_eq_true] at hcomplete
    have herrors : r.errors = r.state.errors := by simp [Run.errors, hcomplete.2]
    rw [herrors]
    exact (Except.ok.inj hd).symm
  · cases hd

/-- A reading that is given up is told by all that was reported. -/
theorem errors_eq_of_outcome {es : List Diagnostic} (hes : r.outcome = .error es) :
    es = r.errors := by
  unfold Run.outcome at hes
  split at hes
  · cases hes
  · exact (Except.error.inj hes).symm

/-- All lines are real, for every text. What is reported before the whole grammar is checked is
reported on lines of the text that never go back, and so are the rules. The line of a rule is that
of its left-hand side or of its bar, that of a code is the line of its opening brace, and a
nonterminal without rules is reported on the line of a rule that uses it. -/
theorem realLines_of_parse (file text : String) :
    ∃ r, readText file text = .ok r ∧ parse file text = .ok r.outcome ∧ RealLines file text r ∧
      (∀ es, r.outcome = .error es → es = r.errors) ∧
      ∀ d, r.outcome = .ok d → d.grammar = r.state.grammar ∧
        d.errors = r.errors ++ d.grammar.verify r.state.file ∧
        ∀ e ∈ d.errors, ∀ n, e.problem = .undefinedNonterminal n →
          ∃ rule ∈ d.grammar.rules, e.location.line = rule.line ∧
            ∃ id ∈ rule.rhs, d.grammar.isUndefined id = true ∧ d.grammar.name id = n := by
  obtain ⟨r, hread, hends⟩ := exists_ends file text
  have hparse : parse file text = .ok r.outcome := by
    rw [parse, hread]
    rfl
  refine ⟨r, hread, hparse, hends.realLines, fun es => errors_eq_of_outcome, ?_⟩
  intro d hd
  obtain rfl := document_eq_of_outcome hd
  refine ⟨rfl, rfl, ?_⟩
  intro e he n hn
  rcases List.mem_append.mp he with hreported | hverify
  · -- a problem with a token is none of the whole grammar
    rcases hends.phases_ne_nil_or_isFatal hreported with hphases | hfatal
    · exact absurd (by rw [hn]; rfl) hphases
    · rw [Diagnostic.isFatal, hn] at hfatal
      cases hfatal
  · exact Grammar.rule_of_mem_verify hverify hn

end Reading

end YaccGrammar
