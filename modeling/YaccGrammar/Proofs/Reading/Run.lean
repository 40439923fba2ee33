import YaccGrammar.Proofs.Reading.Frame
import YaccGrammar.Proofs.Text.Prefix
import YaccGrammar.Reading.Document

/-!
# Runs

A run over a text reads the tokens that the tokenizer finds, one after the other. When they lead to
the trailing code, what is left of the text is taken as it stands, and the run ends.

## Main statements

- `run_induction`: what a run keeps.
- `run_of_takes`: a run reads the tokens that are found.
- `run_of_trailer`: a run ends with the trailing code.
-/

namespace YaccGrammar.Reading

open Text Tokenizer

variable {n : Nat} {t t' : Tokenizer} {s : State}

/-- What reading a token, taking the trailing code and reporting a problem keep is kept by a run. -/
theorem run_induction {P : State → Prop} (hconsume : ∀ k s, P s → P (consume k s))
    (htrailer : ∀ s code line, P s → P (s.setTrailer code line))
    (hreport : ∀ s line problem, P s → P (s.report line problem)) {r : Run} (hs : P s)
    (hrun : run n t s = .ok r) : P r.state := by
  induction n generalizing t s r with
  | zero =>
    cases hrun
    exact hs
  | succ n ih =>
    obtain ⟨⟨found, t'⟩, hnext⟩ := t.next_isOk
    rw [run, hnext] at hrun
    cases found with
    | nothing =>
      cases hrun
      exact hs
    | cut what =>
      cases hrun
      exact hreport s _ _ hs
    | token k =>
      -- taking the trailing code comes between two tokens
      have hcaptured : P (captureTrailer t' (consume k s)).2 := by
        unfold captureTrailer
        split
        · exact htrailer _ _ _ (hconsume k s hs)
        · exact hconsume k s hs
      change (run n _ (captureTrailer t' (consume k s)).2 >>= fun r =>
        Except.ok { r with tokens := k :: r.tokens }) = .ok r at hrun
      cases hlater : run n _ (captureTrailer t' (consume k s)).2 with
      | error e =>
        rw [hlater] at hrun
        cases hrun
      | ok r' =>
        rw [hlater] at hrun
        cases hrun
        exact ih (r := r') hcaptured hlater

/-- One token, behind which trailing code is not due. -/
theorem run_token {k : Token} (hnext : t.next = .ok (.token k, t'))
    (hphase : (consume k s).phase ≠ .trailer) :
    run (n + 1) t s =
      (run n t' (consume k s)).map fun r => { r with tokens := k :: r.tokens } := by
  -- only in the trailer is something captured
  have hcapture : captureTrailer t' (consume k s) = (t', consume k s) := by
    refine if_neg ?_
    simp [State.awaitsTrailer, hphase]
  rw [run, hnext]
  change (run n (captureTrailer t' (consume k s)).1 (captureTrailer t' (consume k s)).2 >>=
    fun r => Except.ok { r with tokens := k :: r.tokens }) = _
  rw [hcapture]
  cases run n t' (consume k s) with
  | error e => rfl
  | ok r => rfl

/-- The tokens that are found are read one after the other, as long as they do not lead to the
trailing code. -/
theorem run_of_takes {ts : List Token} (h : Takes t ts t')
    (hphase : (consumeAll ts s).phase ≠ .trailer) :
    run (ts.length + n) t s =
      (run n t' (consumeAll ts s)).map fun r => { r with tokens := ts ++ r.tokens } := by
  induction h generalizing s with
  | nil t =>
    rw [List.length_nil, Nat.zero_add]
    -- without tokens nothing is put in front of those of the run
    change run n t s = (run n t s).map id
    cases run n t s with
    | error e => rfl
    | ok r => rfl
  | @cons t t₁ t' k ts hnext hts ih =>
    -- if the trailing code were due here, it would have been reached by all of the tokens
    have hphase₁ : (consume k s).phase ≠ .trailer :=
      fun htrailer => hphase (phase_consumeAll_of_trailer ts htrailer)
    have hlength : (k :: ts).length + n = ts.length + n + 1 := by
      rw [List.length_cons]
      omega
    rw [hlength, run_token hnext hphase₁, ih hphase, consumeAll_cons]
    cases run n t' (consumeAll ts (consume k s)) with
    | error e => rfl
    | ok r => rfl

/-- A run stops where only blanks are left. -/
theorem run_of_blanks (hblank : t.source.unread.all isBlank = true) :
    ∃ t', run (n + 1) t s = .ok ⟨[], t', s, none⟩ := by
  obtain ⟨t', hnext⟩ := next_of_gap (.of_blanks hblank)
  refine ⟨t', ?_⟩
  rw [run, hnext]
  rfl

/-- With the token that leads to the trailing code a run ends, and takes the rest of the text as it
stands. -/
theorem run_of_trailer {k : Token} (hnext : t.next = .ok (.token k, t'))
    (hawaits : (consume k s).awaitsTrailer = true) :
    ∃ t'', run (n + 2) t s = .ok ⟨[k], t'',
      (consume k s).setTrailer (String.ofList t'.source.unread) t'.line, none⟩ := by
  have hcapture : captureTrailer t' (consume k s) = (t'.takeRest.2,
      (consume k s).setTrailer (String.ofList t'.source.unread) t'.line) := if_pos hawaits
  -- nothing is left behind the code, so the next round finds the end
  obtain ⟨t'', hend⟩ := run_of_blanks (n := n) (t := t'.takeRest.2)
    (s := (consume k s).setTrailer (String.ofList t'.source.unread) t'.line) rfl
  refine ⟨t'', ?_⟩
  rw [run, hnext]
  change (run (n + 1) (captureTrailer t' (consume k s)).1 (captureTrailer t' (consume k s)).2 >>=
    fun r => Except.ok { r with tokens := k :: r.tokens }) = _
  rw [hcapture, hend]
  rfl

end YaccGrammar.Reading
