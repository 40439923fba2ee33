import YaccGrammar.Proofs.Reading.Effect
import YaccGrammar.Proofs.Reading.Parts
import YaccGrammar.Proofs.Token

/-!
# Semicolons

A semicolon ends the rule in which it stands, and behind it the next rule is awaited. It does not
do so where a rule is awaited already, nor behind the `%` or the keyword of a precedence. There it
is taken for the left-hand side, the keyword or the symbol that is missing, and what follows it is
read as if it belonged to the rule before; the next semicolon leads out of that.

## Main statements

- `openRule_isSome_of_inPrec`: around a precedence a rule is open.
- `betweenRules_consume_semicolon_iff`: where a semicolon leads to the next rule, and what becomes
  of the next rule where it does not.
-/

namespace YaccGrammar

/-- Reading is behind the `%` of a precedence and has not come to the end of its alternative. -/
def Phase.inPrec : Phase → Bool
  | precKeyword | precSymbol | afterPrec => true
  | _ => false

/-- Reading takes a semicolon for the end of a rule. -/
def Phase.endsAtSemicolon : Phase → Bool
  | colon | ruleBody | afterPrec => true
  | _ => false

namespace Reading

/-- No rule is being read, and the next one is awaited. -/
def State.BetweenRules (s : State) : Prop := s.phase = .ruleHead ∧ s.openRule = none

instance (s : State) : Decidable s.BetweenRules := inferInstanceAs (Decidable (_ ∧ _))

variable {s : State} {t u : Token}

/-! ## The open rule -/

/-- Code does not open or close a rule. -/
theorem openRule_attachCode (id : RuleId) (t : Token) (s : State) :
    (attachCode id t s).openRule = s.openRule := by
  unfold attachCode
  split
  · rfl
  · split <;> rfl

/-- The check of an empty alternative does not open or close a rule. -/
theorem openRule_checkEmpty (id : RuleId) (lhs : SymbolId) (line : Nat) (s : State) :
    (checkEmpty id lhs line s).openRule = s.openRule := by
  unfold checkEmpty
  dsimp only
  split <;> rfl

/-- Behind a rule the next one is awaited. -/
theorem phase_endRule (id : RuleId) (line : Nat) (s : State) :
    (endRule id line s).phase = .ruleHead := rfl

/-- The end of a rule is reported at most. -/
theorem openRule_endRule (id : RuleId) (line : Nat) (s : State) :
    (endRule id line s).openRule = none ∧ (endRule id line s).grammar = s.grammar := by
  unfold endRule
  dsimp only [State.goto]
  split
  · split
    · exact ⟨openRule_checkEmpty _ _ _ _, grammar_checkEmpty _ _ _ _⟩
    · exact ⟨rfl, rfl⟩
  · exact ⟨rfl, rfl⟩

/-- Only a `%` inside of a rule leads to a precedence. -/
theorem inPrec_of_next {p q : Phase} (hq : q ∈ p.next) (hprec : q.inPrec = true) :
    p.inPrec = true ∨ p = .ruleBody := by
  -- by the list of the phases that can follow
  have hnext : (∀ q ∈ p.next, q.inPrec = false) ∨ p.inPrec = true ∨ p = .ruleBody := by
    cases p <;> decide
  rcases hnext with hnone | hbefore
  · rw [hnone q hq] at hprec
    contradiction
  · exact hbefore

/-- A precedence is read only while a rule is open, and the rule stays open. -/
theorem openRule_isSome_react (t : Token) (hs : s.phase.inPrec = true → s.openRule.isSome = true)
    (h : (react t s).state.phase.inPrec = true) : (react t s).state.openRule.isSome = true := by
  have hnext := inPrec_of_next (phase_react_mem t s) h
  unfold react at h ⊢
  cases hphase : s.phase with
  | ruleBody =>
    simp only [hphase, reactRuleBody, Reaction.state] at h ⊢
    cases hopen : s.openRule with
    | none =>
      simp only [hopen] at h
      split at h
      · contradiction
      · simp [hphase, Phase.inPrec] at h
    | some id =>
      -- what stays in the body or leaves the rule is no precedence
      have hstay {s' : State} (hsetting : s'.setting = s.setting) : s'.phase.inPrec = false := by
        rw [phase_eq_of_setting hsetting, hphase]
        rfl
      simp only [hopen] at h ⊢
      split at h
      · rw [hstay (setting_newAlternative _ _ _)] at h
        contradiction
      split at h
      · rw [hstay (setting_attachCode _ _ _)] at h
        contradiction
      split at h
      · -- only here the precedence is entered, and the rule is not touched
        next hbar hcode hpercent =>
        simp [hbar, hcode, hpercent, State.goto, hopen]
      split at h
      · contradiction
      split at h
      · rw [hstay (rfl : (appendSymbol id t.text s).setting = s.setting)] at h
        contradiction
      · rw [hstay (rfl : (s.report t.line (.unexpectedToken t.text)).setting = s.setting)] at h
        contradiction
  | precKeyword =>
    have hopen := hs (by simp [hphase, Phase.inPrec])
    simp only [reactPrecKeyword, Reaction.state]
    split <;> exact hopen
  | precSymbol =>
    have hopen := hs (by simp [hphase, Phase.inPrec])
    simp only [reactPrecSymbol, Reaction.state]
    split <;> exact hopen
  | afterPrec =>
    have hopen := hs (by simp [hphase, Phase.inPrec])
    -- a bar or a semicolon leads out of the precedence; anything else leaves the rule open
    obtain ⟨id, hid⟩ := Option.isSome_iff_exists.mp hopen
    simp only [hphase, hid, reactAfterPrec, Reaction.state] at h ⊢
    split at h
    · next hcode =>
      rw [if_pos hcode, openRule_attachCode]
      exact hopen
    split at h
    · contradiction
    split at h
    · contradiction
    · next hcode hbar hsemicolon =>
      rw [if_neg hcode, if_neg hbar, if_neg hsemicolon]
      exact hopen
  | _ => simp [hphase, Phase.inPrec] at hnext

/-- Around a precedence a rule is open, whatever the tokens were. -/
theorem openRule_isSome_of_inPrec {file : String} (ts : List Token)
    (h : (consumeAll ts (.initial file)).phase.inPrec = true) :
    (consumeAll ts (.initial file)).openRule.isSome = true := by
  let P (s : State) : Prop := s.phase.inPrec = true → s.openRule.isSome = true
  have hinitial : P (.initial file) := nofun
  exact consumeAll_induction (P := P) (fun t s => openRule_isSome_react t) ts hinitial h

/-! ## Consuming a semicolon -/

/-- In the body of a rule a semicolon ends it, and where a rule is skipped it ends the skipping. -/
theorem betweenRules_of_ruleBody (hphase : s.phase = .ruleBody) (ht : t.is ';' = true) :
    (consume t s).BetweenRules ∧ (consume t s).grammar = s.grammar := by
  -- a semicolon is none of the marks that are asked for first
  have hbar : t.is '|' = false := Token.is_eq_false_of_is ht (by decide)
  have hpercent : t.is '%' = false := Token.is_eq_false_of_is ht (by decide)
  have hcode : t.first ≠ '{' := by
    rw [Token.first_eq_of_is ht]
    decide
  simp only [consume, react, hphase, reactRuleBody]
  cases hopen : s.openRule with
  | none =>
    simp only [ht, if_true]
    exact ⟨⟨rfl, hopen⟩, rfl⟩
  | some id =>
    simp only [hbar, hcode, hpercent, ht, if_true, if_false, Bool.false_eq_true]
    obtain ⟨hclosed, hgrammar⟩ := openRule_endRule id t.line s
    exact ⟨⟨phase_endRule id t.line s, hclosed⟩, hgrammar⟩

/-- Where the colon is missing, the semicolon is read again as the end of the rule. -/
theorem betweenRules_of_colon (hphase : s.phase = .colon) (ht : t.is ';' = true) :
    (consume t s).BetweenRules ∧ (consume t s).grammar = s.grammar := by
  have hcolon : t.is ':' = false := Token.is_eq_false_of_is ht (by decide)
  have hagain : react t s = .again ((s.report t.line (.missingColon t.text)).goto .ruleBody) := by
    simp [react, hphase, reactColon, hcolon]
  rw [consume_of_again hagain]
  exact betweenRules_of_ruleBody rfl ht

/-- Behind a precedence a semicolon ends the rule. -/
theorem betweenRules_of_afterPrec (hphase : s.phase = .afterPrec) (hopen : s.openRule.isSome = true)
    (ht : t.is ';' = true) : (consume t s).BetweenRules ∧ (consume t s).grammar = s.grammar := by
  have hbar : t.is '|' = false := Token.is_eq_false_of_is ht (by decide)
  have hcode : t.first ≠ '{' := by
    rw [Token.first_eq_of_is ht]
    decide
  obtain ⟨id, hid⟩ := Option.isSome_iff_exists.mp hopen
  simp only [consume, react, hphase, reactAfterPrec, hid, hbar, hcode, ht, if_true, if_false,
    Bool.false_eq_true]
  obtain ⟨hclosed, hgrammar⟩ := openRule_endRule id t.line s
  exact ⟨⟨phase_endRule id t.line s, hclosed⟩, hgrammar⟩

/-- Where a rule is awaited, the semicolon is an invalid left-hand side, behind which everything is
skipped. -/
theorem consume_semicolon_ruleHead (hphase : s.phase = .ruleHead) (ht : t.is ';' = true) :
    consume t s =
      { s.report t.line (.invalidLhs t.text) with openRule := none, phase := .ruleBody } := by
  have hpercent : t.is '%' = false := Token.is_eq_false_of_is ht (by decide)
  have hname : Name.isNonterminal t.text = false :=
    Token.isNonterminal_eq_false_of_is ht (by decide)
  simp [consume, react, hphase, reactRuleHead, hpercent, hname]

/-- Behind the `%` of a precedence, the semicolon is a wrong keyword, and the rule goes on. -/
theorem consume_semicolon_precKeyword (hphase : s.phase = .precKeyword) (ht : t.is ';' = true) :
    consume t s = (s.report t.line (.missingPrecKeyword t.text)).goto .ruleBody := by
  -- a semicolon is no keyword
  have hkeyword : Keyword.ofWord? t.text ≠ some .prec := by
    intro hprec
    rw [Token.is_eq_false_of_keyword hprec] at ht
    contradiction
  simp [consume, react, hphase, reactPrecKeyword, hkeyword]

/-- Behind the keyword of a precedence, the semicolon is a symbol, and the rule goes on. -/
theorem consume_semicolon_precSymbol (hphase : s.phase = .precSymbol) (t : Token) :
    (consume t s).phase = .afterPrec ∧ (consume t s).openRule = s.openRule ∧
      (consume t s).grammar.rules.length = s.grammar.rules.length := by
  simp only [consume, react, hphase, reactPrecSymbol]
  split
  · simp [State.modifyGrammar, State.goto, Grammar.modifyRule]
  · exact ⟨rfl, rfl, rfl⟩

/-! ## The name behind a semicolon -/

/-- Where a rule is awaited, a name opens one. -/
theorem length_rules_of_ruleHead (hphase : s.phase = .ruleHead)
    (hname : Name.isNonterminal u.text = true) :
    (consume u s).grammar.rules.length = s.grammar.rules.length + 1 := by
  have hpercent : u.is '%' = false :=
    Token.is_eq_false_of_first (Token.first_ne_of_isNonterminal hname (by decide))
  simp [consume, react, hphase, reactRuleHead, hpercent, hname, openNew, State.goto,
    Grammar.addRule, Grammar.intern]

/-- In a rule, or where one is skipped, a name opens none. -/
theorem length_rules_of_rule (hphase : s.phase = .ruleBody ∨ s.phase = .afterPrec)
    (hname : Name.isNonterminal u.text = true) :
    (consume u s).grammar.rules.length = s.grammar.rules.length := by
  -- a name begins with a small letter, so it is no mark of the body
  have hmark {c : Char} (hc : Letter.isSmall c = false) : u.is c = false :=
    Token.is_eq_false_of_first (Token.first_ne_of_isNonterminal hname hc)
  have hbar : u.is '|' = false := hmark (by decide)
  have hpercent : u.is '%' = false := hmark (by decide)
  have hsemicolon : u.is ';' = false := hmark (by decide)
  have hcode : u.first ≠ '{' := Token.first_ne_of_isNonterminal hname (by decide)
  rcases hphase with hphase | hphase
  · simp only [consume, react, hphase, reactRuleBody]
    cases s.openRule with
    | none => simp [hsemicolon]
    | some id =>
      simp only [hbar, hcode, hpercent, hsemicolon, if_false, Bool.false_eq_true]
      -- as a symbol it may be new, but it stands in the rule that is open
      split
      · simp [appendSymbol, Grammar.modifyRule, Grammar.intern]
      · rfl
  · simp only [consume, react, hphase, reactAfterPrec]
    cases s.openRule with
    | none => rfl
    | some id => simp [hbar, hcode, hsemicolon, State.report]

/-- Where no rule is open, everything is skipped up to a semicolon. -/
theorem consumeAll_eq_self (hphase : s.phase = .ruleBody) (hopen : s.openRule = none)
    {us : List Token} (hus : ∀ u ∈ us, u.is ';' = false) : consumeAll us s = s := by
  induction us with
  | nil => rfl
  | cons u us ih =>
    obtain ⟨hu, hus⟩ := List.forall_mem_cons.mp hus
    have hskip : consume u s = s := by
      simp [consume, react, hphase, reactRuleBody, hopen, hu]
    rw [consumeAll_cons, hskip]
    exact ih hus

/-! ## Where a semicolon leads to the next rule -/

/-- In the rules, a semicolon leads to the next rule where one is looked for. Then the name that
follows opens a rule. Elsewhere no name that follows opens a rule; where a rule was awaited, all of
the next one is skipped. The next semicolon leads out of that. -/
theorem betweenRules_consume_semicolon_iff {file : String} {ts : List Token}
    (hs : consumeAll ts (.initial file) = s) (hpart : s.phase.part = 2) (ht : t.is ';' = true) :
    ((consume t s).BetweenRules ↔ s.phase.endsAtSemicolon = true) ∧
      (∀ u, Name.isNonterminal u.text = true →
        (consume u (consume t s)).grammar.rules.length =
          s.grammar.rules.length + if s.phase.endsAtSemicolon then 1 else 0) ∧
      (s.phase = .ruleHead → ∀ us, (∀ u ∈ us, u.is ';' = false) →
        consumeAll us (consume t s) = consume t s) ∧
      (s.phase.endsAtSemicolon = false →
        ∀ u, u.is ';' = true → (consume u (consume t s)).BetweenRules) := by
  -- around a precedence some rule is open, which the state itself does not tell
  have hprec (h : s.phase.inPrec = true) : s.openRule.isSome = true := by
    subst hs
    exact openRule_isSome_of_inPrec ts h
  -- where the semicolon ends the rule, the grammar is as before and a name opens a rule
  have hends (h : (consume t s).BetweenRules ∧ (consume t s).grammar = s.grammar) (u : Token)
      (hu : Name.isNonterminal u.text = true) :
      (consume u (consume t s)).grammar.rules.length = s.grammar.rules.length + 1 := by
    rw [length_rules_of_ruleHead h.1.1 hu, h.2]
  cases hphase : s.phase with
  | preamble | importBlock | declaration | keyword | tagOrBlock | declaredNames | trailerMark
  | trailer => simp [hphase, Phase.part] at hpart
  | colon =>
    have hclosed := betweenRules_of_colon hphase ht
    exact ⟨by simp [hclosed.1, Phase.endsAtSemicolon], hends hclosed,
      fun h => absurd h (by decide), fun h => absurd h (by decide)⟩
  | ruleBody =>
    have hclosed := betweenRules_of_ruleBody hphase ht
    exact ⟨by simp [hclosed.1, Phase.endsAtSemicolon], hends hclosed,
      fun h => absurd h (by decide), fun h => absurd h (by decide)⟩
  | afterPrec =>
    have hclosed := betweenRules_of_afterPrec hphase (hprec (by rw [hphase]; rfl)) ht
    exact ⟨by simp [hclosed.1, Phase.endsAtSemicolon], hends hclosed,
      fun h => absurd h (by decide), fun h => absurd h (by decide)⟩
  | ruleHead =>
    have hread := consume_semicolon_ruleHead hphase ht
    -- the rule that is awaited is skipped as one with a wrong left-hand side
    refine ⟨?_, fun u hu => ?_, fun _ us hus => ?_, fun _ u hu => ?_⟩
    · simp [hread, State.BetweenRules, Phase.endsAtSemicolon]
    · rw [length_rules_of_rule (.inl (by rw [hread])) hu, hread]
      rfl
    · exact consumeAll_eq_self (by rw [hread]) (by rw [hread]) hus
    · exact (betweenRules_of_ruleBody (by rw [hread]) hu).1
  -- the rule before goes on, and takes the next name for one of its symbols
  | precKeyword =>
    have hread := consume_semicolon_precKeyword hphase ht
    refine ⟨?_, fun u hu => ?_, fun h => absurd h (by decide), fun _ u hu => ?_⟩
    · simp [hread, State.BetweenRules, State.goto, Phase.endsAtSemicolon]
    · rw [length_rules_of_rule (.inl (by rw [hread]; rfl)) hu, hread]
      rfl
    · exact (betweenRules_of_ruleBody (by rw [hread]; rfl) hu).1
  | precSymbol =>
    obtain ⟨hafter, hopen, hlength⟩ := consume_semicolon_precSymbol hphase t
    refine ⟨?_, fun u hu => ?_, fun h => absurd h (by decide), fun _ u hu => ?_⟩
    · simp [hafter, State.BetweenRules, Phase.endsAtSemicolon]
    · rw [length_rules_of_rule (.inr hafter) hu, hlength]
      rfl
    · have hsome : (consume t s).openRule.isSome = true := by
        rw [hopen]
        exact hprec (by rw [hphase]; rfl)
      exact (betweenRules_of_afterPrec hafter hsome hu).1

/-- The tokens of a file up to its first rule, the end of which is still missing. -/
def unfinishedRule : List Token :=
  [⟨"%", 1⟩, ⟨"\x7b%\x7d", 1⟩, ⟨"%", 1⟩, ⟨"%", 1⟩, ⟨"e", 1⟩, ⟨":", 1⟩, ⟨"A", 1⟩]

/-- Behind a doubled semicolon a rule is skipped. -/
theorem betweenRules_consume_semicolon_iff_doubled :
    let s : State := consumeAll (unfinishedRule ++ [⟨";", 1⟩]) (.initial "list.y")
    s.phase.part = 2 ∧ ¬ (consume ⟨";", 1⟩ s).BetweenRules ∧
      consumeAll [⟨"f", 2⟩, ⟨":", 2⟩, ⟨"B", 2⟩] (consume ⟨";", 1⟩ s) = consume ⟨";", 1⟩ s := by
  intro s
  have hhead : s.phase = .ruleHead := by decide
  have hpart : s.phase.part = 2 := by rw [hhead]; rfl
  have hsemicolon : Token.is ⟨";", 1⟩ ';' = true := by decide
  obtain ⟨hends, -, hskip, -⟩ := betweenRules_consume_semicolon_iff (s := s) rfl hpart hsemicolon
  refine ⟨hpart, ?_, hskip hhead _ (by decide)⟩
  rw [hends, hhead]
  exact nofun

/-- The rule behind the semicolon is lost when a semicolon, a `%` or a `%prec` stands in front of
the semicolon. -/
theorem semicolon_swallows_rule :
    let read (mistake : List Token) : State :=
      consumeAll (unfinishedRule ++ mistake ++ [⟨";", 1⟩]) (.initial "list.y")
    let next : List Token := [⟨"f", 2⟩, ⟨":", 2⟩, ⟨"B", 2⟩, ⟨";", 2⟩]
    (¬ (read [⟨";", 1⟩]).BetweenRules ∧ ¬ (read [⟨"%", 1⟩]).BetweenRules ∧
        ¬ (read [⟨"%", 1⟩, ⟨"prec", 1⟩]).BetweenRules) ∧
      (consumeAll next (read [⟨";", 1⟩])).grammar.rules.length = 1 ∧
      (consumeAll next (read [⟨"%", 1⟩])).grammar.rules.length = 1 ∧
      (consumeAll next (read [⟨"%", 1⟩, ⟨"prec", 1⟩])).grammar.rules.length = 1 := by
  decide

end Reading

end YaccGrammar
