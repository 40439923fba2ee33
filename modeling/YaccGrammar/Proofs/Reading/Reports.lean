import YaccGrammar.Proofs.Reading.Effect

/-!
# Which problems are reported where

A reaction reports at most one problem, on the line of the token. What it can be depends on the
phase: every problem belongs to one phase or to two, and those that only the end of a file can
bring to light belong to none.

## Main statements

- `reports_react`: what a reaction may report.
- `filter_errors_react`: problems of other phases are left alone.
-/

namespace YaccGrammar

/-- The phases in which a token can be a problem of this kind. -/
def Problem.phases : Problem → List Phase
  | missingImportBlock _ => [.preamble, .importBlock]
  | missingDeclaration _ => [.declaration]
  | unknownKeyword _ | precOutsideRule => [.keyword]
  | missingUnionBlock _ | repeatedUnion _ => [.tagOrBlock]
  | misplacedTag _ | nonterminalExpected _ _ | terminalExpected _ _ | repeatedStart _ =>
    [.declaredNames]
  | noRules | invalidLhs _ => [.ruleHead]
  | missingColon _ => [.colon]
  | unexpectedToken _ => [.ruleBody]
  | repeatedEmptyAlternative _ | repeatedCode _ => [.ruleBody, .afterPrec]
  | missingPrecKeyword _ => [.precKeyword]
  | undeclaredPrecSymbol _ => [.precSymbol]
  | unexpectedAfterPrec _ => [.afterPrec]
  | missingTrailerMark _ => [.trailerMark]
  | undefinedNonterminal _ | undefinedStart _ | unterminated _ | unexpectedEnd _ | unreadable _ =>
    []

namespace Reading

/-- At most one problem is reported, on the line of the token, and it belongs to the phase. -/
inductive Reports (phase : Phase) (t : Token) (s s' : State) : Prop where
  | nothing (herrors : s'.errors = s.errors)
  | one (p : Problem) (hp : phase ∈ p.phases)
      (herrors : s'.errors = s.errors ++ [⟨⟨s.file, t.line⟩, p⟩])

variable {phase : Phase} {t : Token} {s s' s'' : State}

/-! ## Parts of reactions -/

namespace Reports

/-- A problem of the phase, reported at the token. -/
theorem report (s : State) {p : Problem} (hp : phase ∈ p.phases) :
    Reports phase t s (s.report t.line p) := .one p hp rfl

/-- Nothing matters but the file and the diagnostics. -/
theorem of_eq (h : Reports phase t s s') (herrors : s''.errors = s'.errors) :
    Reports phase t s s'' := by
  cases h with
  | nothing h => exact .nothing (herrors.trans h)
  | one p hp h => exact .one p hp (herrors.trans h)

end Reports

/-- A declared name brings at most one problem, of the names of a declaration. -/
theorem reports_declare (k : Keyword) (t : Token) (s : State) :
    Reports .declaredNames t s (declare k t s) := by
  unfold declare
  lift_lets
  intro id g
  -- the grammar has no part in what is reported
  have hreport {p : Problem} (hp : .declaredNames ∈ p.phases) :
      Reports .declaredNames t s ({ s with grammar := g }.report t.line p) := .one p hp rfl
  clear_value g
  cases k with
  | type | token | left | right | nonassoc =>
    dsimp only
    split
    · exact .nothing rfl
    · exact hreport (by simp [Problem.phases])
  -- a terminal is refused, and so is a second start symbol; only one of the two is reported
  | start =>
    dsimp only
    split
    · exact hreport (by simp [Problem.phases])
    split
    · exact hreport (by simp [Problem.phases])
    · exact .nothing rfl
  | prec | union => exact .nothing rfl

/-- What follows `%union` brings at most one problem: no block, or a second one. -/
theorem reports_readUnion (t : Token) (s : State) :
    Reports .tagOrBlock t s (readUnion t s).state := by
  unfold readUnion
  split
  · simp only [Reaction.state]
    cases s.grammar.unionCode with
    | none => exact .nothing rfl
    | some first => exact .one (.repeatedUnion first.line) (by simp [Problem.phases]) rfl
  · exact .one (.missingUnionBlock t.text) (by simp [Problem.phases]) rfl

/-- Alternatives are checked behind the body of a rule and behind a precedence. -/
theorem reports_checkEmpty (hphase : phase = .ruleBody ∨ phase = .afterPrec) (id : RuleId)
    (lhs : SymbolId) (t : Token) (s : State) :
    Reports phase t s (checkEmpty id lhs t.line s) := by
  unfold checkEmpty
  dsimp only
  split
  · exact .report s (by simpa [Problem.phases] using hphase)
  · exact .nothing rfl

/-- A bar brings at most the problem that an empty alternative is repeated. -/
theorem reports_newAlternative (hphase : phase = .ruleBody ∨ phase = .afterPrec) (id : RuleId)
    (t : Token) (s : State) : Reports phase t s (newAlternative id t.line s) := by
  unfold newAlternative
  split
  · exact .nothing rfl
  next r _ =>
  dsimp only
  split
  · -- only an empty alternative is checked; whether its rule is used again is not reported
    have hcheck := reports_checkEmpty hphase id r.lhs t s
    split
    · exact hcheck.of_eq rfl
    · exact hcheck.of_eq rfl
  · exact .nothing rfl

/-- The end of a rule brings at most the problem that an empty alternative is repeated. -/
theorem reports_endRule (hphase : phase = .ruleBody ∨ phase = .afterPrec) (id : RuleId)
    (t : Token) (s : State) : Reports phase t s (endRule id t.line s) := by
  unfold endRule
  dsimp only
  split
  · next r _ =>
    split
    · -- the rule is closed before it is checked, which is not reported
      cases reports_checkEmpty hphase id r.lhs t { s with openRule := none } with
      | nothing h => exact .nothing h
      | one p hp h => exact .one p hp h
    · exact .nothing rfl
  · exact .nothing rfl

/-- A code block in a rule brings at most the problem that there was one before. -/
theorem reports_attachCode (hphase : phase = .ruleBody ∨ phase = .afterPrec) (id : RuleId)
    (t : Token) (s : State) : Reports phase t s (attachCode id t s) := by
  unfold attachCode
  split
  · exact .nothing rfl
  split
  · exact .report s (by simpa [Problem.phases] using hphase)
  · exact .nothing rfl

/-! ## Tokens -/

/-- Among declared names, at most one problem is reported. -/
theorem reports_reactDeclaredNames (t : Token) (s : State) :
    Reports .declaredNames t s (reactDeclaredNames t s).state := by
  simp only [reactDeclaredNames, Reaction.state]
  split
  · exact .nothing rfl
  split
  · exact .nothing rfl
  split
  · exact .report s (by simp [Problem.phases])
  · exact reports_declare _ t s

/-- In the body of a rule, at most one problem is reported. -/
theorem reports_reactRuleBody (t : Token) (s : State) :
    Reports .ruleBody t s (reactRuleBody t s).state := by
  simp only [reactRuleBody, Reaction.state]
  split
  · split <;> exact .nothing rfl
  split
  · -- an alternative is checked where it is closed, by a bar or by a semicolon
    exact reports_newAlternative (.inl rfl) _ t s
  split
  · exact reports_attachCode (.inl rfl) _ t s
  split
  · exact .nothing rfl
  split
  · exact reports_endRule (.inl rfl) _ t s
  split
  · exact .nothing rfl
  · exact .report s (by simp [Problem.phases])

/-- Behind a precedence, at most one problem is reported. -/
theorem reports_reactAfterPrec (t : Token) (s : State) :
    Reports .afterPrec t s (reactAfterPrec t s).state := by
  simp only [reactAfterPrec, Reaction.state]
  split
  · exact .nothing rfl
  split
  · exact reports_attachCode (.inr rfl) _ t s
  split
  · -- back to the body of the rule, which reports nothing more
    exact (reports_newAlternative (.inr rfl) _ t s).of_eq rfl
  split
  · exact reports_endRule (.inr rfl) _ t s
  · exact .report s (by simp [Problem.phases])

/-- A reaction reports at most one problem, and one of its phase. -/
theorem reports_react (t : Token) (s : State) : Reports s.phase t s (react t s).state := by
  unfold react
  cases s.phase with
  | preamble =>
    simp only [reactPreamble, Reaction.state]
    split
    · exact .nothing rfl
    · exact .report s (by simp [Problem.phases])
  | importBlock =>
    simp only [reactImportBlock]
    split
    · exact .nothing rfl
    · exact .one (.missingImportBlock t.text) (by simp [Problem.phases]) rfl
  | declaration =>
    simp only [reactDeclaration, Reaction.state]
    split
    · exact .nothing rfl
    · exact .report s (by simp [Problem.phases])
  | keyword =>
    simp only [reactKeyword]
    split
    · exact .nothing rfl
    · simp only [Reaction.state]
      split
      · exact .one .precOutsideRule (by simp [Problem.phases]) rfl
      · exact .nothing rfl
      · exact .one (.unknownKeyword t.text) (by simp [Problem.phases]) rfl
  | tagOrBlock =>
    simp only [reactTagOrBlock]
    split
    · exact reports_readUnion t s
    split <;> exact .nothing rfl
  | declaredNames => exact reports_reactDeclaredNames t s
  | ruleHead =>
    simp only [reactRuleHead, Reaction.state]
    split
    · split
      · exact .report s (by simp [Problem.phases])
      · exact .nothing rfl
    split
    · exact .nothing rfl
    · exact .one (.invalidLhs t.text) (by simp [Problem.phases]) rfl
  | colon =>
    simp only [reactColon]
    split
    · exact .nothing rfl
    · exact .one (.missingColon t.text) (by simp [Problem.phases]) rfl
  | ruleBody => exact reports_reactRuleBody t s
  | precKeyword =>
    simp only [reactPrecKeyword, Reaction.state]
    split
    · exact .nothing rfl
    · exact .one (.missingPrecKeyword t.text) (by simp [Problem.phases]) rfl
  | precSymbol =>
    simp only [reactPrecSymbol, Reaction.state]
    split
    · exact .nothing rfl
    · exact .one (.undeclaredPrecSymbol t.text) (by simp [Problem.phases]) rfl
  | afterPrec => exact reports_reactAfterPrec t s
  | trailerMark =>
    simp only [reactTrailerMark, Reaction.state]
    split
    · exact .nothing rfl
    · exact .report s (by simp [Problem.phases])
  | trailer => exact .nothing rfl

/-- A reaction reports no problem of another phase. -/
theorem filter_errors_react {f : Problem → Bool} (h : ∀ p, f p = true → s.phase ∉ p.phases)
    (t : Token) :
    ((react t s).state.errors.filter fun d => f d.problem) =
      s.errors.filter fun d => f d.problem := by
  cases reports_react t s with
  | nothing herrors => rw [herrors]
  | one p hp herrors =>
    -- the problem that is new is of this phase, so the filter drops it
    have hother : f p = false := Bool.eq_false_iff.mpr fun hf => h p hf hp
    simp [herrors, hother]

end Reading

end YaccGrammar
