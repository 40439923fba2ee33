import YaccGrammar.Proofs.Reading.Frame
import YaccGrammar.Proofs.Reading.Replay

/-!
# Ends of alternatives

An alternative is closed by a bar or a semicolon. What these tokens do is the same whether or not a
precedence was given.

## Main statements

- `react_of_bar`, `react_of_semicolon`: what they do to a state.
- `errors_newAlternative`, `errors_endRule`: what they report.
- `observe_of_bar`, `observe_of_semicolon`: what is written down then.
-/

namespace YaccGrammar.Reading

variable {s : State} {t : Token} {id : RuleId} {h : History} {a : Alternative} {phase : Phase}

/-! ## States -/

theorem goto_eq_self (hphase : s.phase = phase) : s.goto phase = s := by
  rw [← hphase]
  rfl

/-- A bar leaves the phase as it is, before the body of the next alternative is entered. -/
theorem phase_newAlternative (id : RuleId) (line : Nat) (s : State) :
    (newAlternative id line s).phase = s.phase :=
  phase_eq_of_setting (setting_newAlternative id line s)

/-- Behind a bar the body of the next alternative begins. -/
theorem react_of_bar (hphase : s.phase = .ruleBody ∨ s.phase = .afterPrec)
    (hopen : s.openRule = some id) (hbar : t.is '|' = true) :
    react t s = .done ((newAlternative id t.line s).goto .ruleBody) := by
  -- in a body the phase is the same afterwards, behind a precedence it changes
  rcases hphase with hphase | hphase
  · rw [goto_eq_self ((phase_newAlternative id t.line s).trans hphase)]
    simp only [react, hphase, reactRuleBody, hopen, hbar, if_true]
  · have hcode : t.first ≠ '{' := by
      rw [Token.first_eq_of_is hbar]
      decide
    simp only [react, hphase, reactAfterPrec, hopen, hbar, hcode, if_true, if_false]

/-- A semicolon ends the rule, behind a precedence as in a body. -/
theorem react_of_semicolon (hphase : s.phase = .ruleBody ∨ s.phase = .afterPrec)
    (hopen : s.openRule = some id) (hsemicolon : t.is ';' = true) :
    react t s = .done (endRule id t.line s) := by
  -- a semicolon is none of the tokens that are looked for before it
  have hbar : t.is '|' = false := Token.is_eq_false_of_is hsemicolon (by decide)
  have hmark : t.is '%' = false := Token.is_eq_false_of_is hsemicolon (by decide)
  have hcode : t.first ≠ '{' := by
    rw [Token.first_eq_of_is hsemicolon]
    decide
  rcases hphase with hphase | hphase
  · simp only [react, hphase, reactRuleBody, hopen, hbar, hcode, hmark, hsemicolon, if_true,
      if_false, Bool.false_eq_true]
  · simp only [react, hphase, reactAfterPrec, hopen, hbar, hcode, hsemicolon, if_true, if_false,
      Bool.false_eq_true]

/-- All that a bar may report is a repeated empty alternative. -/
theorem errors_newAlternative {r : Rule} (hrule : s.grammar.rule? id = some r) (line : Nat) :
    (newAlternative id line s).errors =
      if r.rhs.isEmpty then (checkEmpty id r.lhs line s).errors else s.errors := by
  simp only [newAlternative, hrule]
  split
  · split <;> rfl
  · rfl

/-- A semicolon reports what a bar would. -/
theorem errors_endRule {r : Rule} (hrule : s.grammar.rule? id = some r) (line : Nat) :
    (endRule id line s).errors =
      if r.rhs.isEmpty then (checkEmpty id r.lhs line s).errors else s.errors := by
  have hrule' : { s with openRule := none }.grammar.rule? id = some r := hrule
  simp only [endRule, hrule']
  split
  · -- whether a rule is open does not matter to the check
    unfold checkEmpty
    dsimp only
    split <;> rfl
  · rfl

/-! ## Histories -/

theorem observe_eq_observeAlternative (hphase : phase = .ruleBody ∨ phase = .afterPrec)
    (t : Token) (h : History) : ∃ inBody, h.observe phase t = h.observeAlternative inBody t := by
  rcases hphase with rfl | rfl
  · exact ⟨true, rfl⟩
  · exact ⟨false, rfl⟩

/-- A bar writes down the alternative that it closes, and one more of the same left-hand side. -/
theorem observe_of_bar (hphase : phase = .ruleBody ∨ phase = .afterPrec)
    (hcurrent : h.current = some a) (hbar : t.is '|' = true) :
    h.observe phase t = (h.close ⟨a, t⟩).openAt a.lhs := by
  obtain ⟨inBody, hobserve⟩ := observe_eq_observeAlternative hphase t h
  simp only [hobserve, History.observeAlternative, hcurrent, hbar, if_true]
  rfl

/-- A semicolon writes down the alternative that it closes. -/
theorem observe_of_semicolon (hphase : phase = .ruleBody ∨ phase = .afterPrec)
    (hcurrent : h.current = some a) (hsemicolon : t.is ';' = true) :
    h.observe phase t = h.close ⟨a, t⟩ := by
  have hbar : t.is '|' = false := Token.is_eq_false_of_is hsemicolon (by decide)
  obtain ⟨inBody, hobserve⟩ := observe_eq_observeAlternative hphase t h
  simp only [hobserve, History.observeAlternative, hcurrent, hbar, hsemicolon, if_true, if_false,
    Bool.false_eq_true]
  rfl

end YaccGrammar.Reading
