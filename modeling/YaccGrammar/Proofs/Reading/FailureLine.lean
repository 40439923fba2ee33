import YaccGrammar.Proofs.Reading.Outcome
import YaccGrammar.Proofs.Text.Failure

/-!
# The line of a failure

When a text is cut off, the line that is remembered and reported is the one on which the token or
the comment begins that was being read. For a comment inside code this is the line of the brace that
opens the code, not that of the comment.

## Main statements

- `exists_document_of_trailer`: behind the second `%%` nothing can fail.
- `line_of_failsWith`: the line of a failure, and what reading the text reports.
-/

namespace YaccGrammar.Reading

open Text Tokenizer

variable {text : String} {answers : List Tokenizer.Answer} {what : Unterminated} {m : Scanner}

/-! ## Reading a text that is cut off -/

/-- A text whose tokens lead to the trailing code is read to its end, also where the trailing code
is cut off. -/
theorem exists_document_of_trailer {file : String} {ts : List Token} {t t' : Tokenizer}
    (htakes : Takes (.ofString text) ts t) (hnext : t.next = .ok (.cut what, t'))
    (htrailer : (consumeAll ts (.initial file)).phase = .trailer) :
    ∃ d, parse file text = .ok (.ok d) := by
  obtain ⟨r, hread, hends⟩ := exists_ends file text
  cases hends with
  | finished hfound hnothing =>
    -- the tokens of the text are those in front of the failure
    have hsame := htakes.end_unique hnext nofun hfound.takes hnothing nofun
    cases hsame.2.1
  -- a cut is reported only in front of the trailing code
  | cut hfound hcut =>
    obtain ⟨rfl, -⟩ := htakes.end_unique hnext nofun hfound.takes hcut nofun
    exact absurd htrailer hfound.phase_ne
  -- the trailing code takes the rest, and what is cut off with it
  | trailing _ _ hphase =>
    rw [parse, hread]
    simp [Except.map, Run.outcome, isComplete_setTrailer hphase]

/-- In front of the trailing code the failure is the last thing that is reported. -/
theorem parse_of_cut {file : String} {ts : List Token} {t t' : Tokenizer}
    (htakes : Takes (.ofString text) ts t) (hnext : t.next = .ok (.cut what, t'))
    (htrailer : (consumeAll ts (.initial file)).phase ≠ .trailer) :
    parse file text = .ok (.error ((consumeAll ts (.initial file)).errors ++
      [⟨⟨file, t'.startLine⟩, .unterminated what⟩])) := by
  have hfound : Found file text ts t := ⟨htakes, htrailer⟩
  rw [parse, hfound.readText_of_cut hnext]
  simp [Except.map, Run.outcome, Run.errors, State.report, file_consumeAll, State.initial]

/-! ## Lines -/

/-- The line of a failure is the one on which the token or the comment begins that is cut off. -/
theorem line_of_isCutAt {p front rest : List Char} (h : Scanner.FailsWith text answers what m)
    (hcut : IsCutAt what text.toList p front rest) : m.token.line = 1 + newlines p := by
  obtain ⟨us, u, -, hus, hnext⟩ := takes_of_failsWith (Scanner.failsWith_tokenizer h)
  obtain ⟨ts, t, t', hts, hnext', hstart⟩ := exists_cut_of_isCutAt (t := .ofString text) hcut
  obtain ⟨-, -, hsame⟩ := hus.end_unique hnext nofun hts hnext' nofun
  exact (congrArg Tokenizer.startLine hsame).trans hstart

/-- The answers that are tokens are the tokens that were found. -/
theorem filterMap_token_found (ts : List Token) :
    (ts.map fun k => Answer.found (.token k)).filterMap Answer.token? = ts := by
  simp [List.filterMap_map, Function.comp_def, Answer.token?]

/-- A text that fails is cut off somewhere. The line that is remembered is the one on which the
token or the comment begins that is cut off there, so it is the line of what the failure names
unless a comment is cut off inside code, with a line break between the brace of the code and the
comment. It is also the line that is reported about the text, as the last thing and behind what is
wrong with the tokens; but when the tokens lead to the trailing code, nothing is reported. -/
theorem line_of_failsWith (h : Scanner.FailsWith text answers what m) :
    (∃ p front rest, IsCutAt what text.toList p front rest) ∧
      (∀ p front rest, IsCutAt what text.toList p front rest →
        m.token.line = 1 + newlines p ∧
          (m.token.line = 1 + newlines (p ++ front) ↔ '\n' ∉ front) ∧
          (what ≠ .comment → m.token.line = 1 + newlines (p ++ front))) ∧
      ∀ file, let s := consumeAll (answers.filterMap Answer.token?) (.initial file)
        (s.phase ≠ .trailer → parse file text =
          .ok (.error (s.errors ++ [⟨⟨file, m.token.line⟩, .unterminated what⟩]))) ∧
          (s.phase = .trailer → ∃ d, parse file text = .ok (.ok d)) := by
  obtain ⟨ts, t, rfl, htakes, hnext⟩ := takes_of_failsWith (Scanner.failsWith_tokenizer h)
  refine ⟨htakes.exists_isCutAt hnext, fun p front rest hcut => ?_, fun file => ?_⟩
  · have hline := line_of_isCutAt h hcut
    -- the lines are the same exactly if no line break stands between the two
    have hfront : m.token.line = 1 + newlines (p ++ front) ↔ '\n' ∉ front := by
      rw [hline, newlines_append, ← List.count_eq_zero]
      change _ ↔ newlines front = 0
      omega
    refine ⟨hline, hfront, fun hwhat => hfront.mpr ?_⟩
    -- only a comment can have something of the code in front of it
    cases hcut.cutOff with
    | literal | tag | code => exact List.not_mem_nil
    | comment | codeComment => exact absurd rfl hwhat
  · rw [filterMap_token_found]
    exact ⟨parse_of_cut htakes hnext, exists_document_of_trailer htakes hnext⟩

/-- The code is cut off behind a line break, and the line of its brace is reported, behind what is
wrong with the token in front of it. -/
theorem line_of_failsWith_code :
    ∃ m, Scanner.FailsWith "a\n\x7b x\n\n" [.found (.token ⟨"a", 1⟩)] .code m ∧
      m.token.line = 2 ∧ parse "list.y" "a\n\x7b x\n\n" =
        .ok (.error [⟨⟨"list.y", 1⟩, .missingImportBlock "a"⟩,
          ⟨⟨"list.y", 2⟩, .unterminated .code⟩]) := by
  obtain ⟨m, hm⟩ : ∃ m, Scanner.FailsWith "a\n\x7b x\n\n" [.found (.token ⟨"a", 1⟩)] .code m :=
    Scanner.exists_failsWith rfl
  obtain ⟨-, hlines, hparse⟩ := line_of_failsWith hm
  have hbreak : IsSequence ['{', ' ', 'x', '\n', '\n'] ['\n'] :=
    .trivium (s := []) (.blank (by decide)) .nil
  have hword : IsSequence ['{', ' ', 'x', '\n', '\n'] ['a', '\n'] :=
    .token (x := ['a']) (.word (by decide) (by decide)) (by decide) hbreak
  have hcode : code .plain 0 [' ', 'x', '\n', '\n'] = .error .code := by rfl
  obtain ⟨hcomment, -⟩ | ⟨-, hcomment, hclosed⟩ := code_eq_error_iff.mp hcode
  · cases hcomment
  have hcut : IsCutAt .code "a\n\x7b x\n\n".toList ['a', '\n'] [] ['{', ' ', 'x', '\n', '\n'] :=
    ⟨by decide, hword, .code hclosed hcomment⟩
  have hline : m.token.line = 2 := (hlines _ _ _ hcut).1
  refine ⟨m, hm, hline, ?_⟩
  rw [(hparse "list.y").1 (by decide), hline]
  rfl

/-- A comment is cut off on the second line, and what is remembered is the line of the brace in
front of it. -/
theorem line_ne_of_comment_in_code :
    ∃ m, Scanner.FailsWith "\x7b\n/*" [] .comment m ∧
      IsCutAt .comment "\x7b\n/*".toList [] ['{', '\n'] ['/', '*'] ∧
      m.token.line = 1 ∧ m.token.line ≠ 1 + newlines ([] ++ ['{', '\n']) := by
  have hcut : IsCutAt .comment "\x7b\n/*".toList [] ['{', '\n'] ['/', '*'] := by
    refine ⟨by decide, .nil, .codeComment (s := ['\n']) (.body ?_) (by decide)⟩
    exact .char (by decide) (by decide) (by decide) (by decide) .nil
  obtain ⟨m, hm⟩ : ∃ m, Scanner.FailsWith "\x7b\n/*" [] .comment m :=
    Scanner.exists_failsWith rfl
  have hline : m.token.line = 1 := line_of_isCutAt hm hcut
  exact ⟨m, hm, hcut, hline, by rw [hline]; decide⟩

end YaccGrammar.Reading
