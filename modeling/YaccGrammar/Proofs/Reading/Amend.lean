import YaccGrammar.Proofs.Reading.Parts

/-!
# What reading does not look at

Reading never looks at the diagnostics that it recorded before, and behind the block at the top it
never looks at the imported code. A state that is amended in these two is read on as before.

## Main statements

- `consumeAll_amend`: amending a state commutes with reading.
- `errors_consumeAll`: diagnostics are only added.
-/

namespace YaccGrammar.Reading

/-- The state with more diagnostics in front of its own, and with its imported code changed. -/
def State.amend (before : List Diagnostic) (f : Option CodeBlock → Option CodeBlock) (s : State) :
    State :=
  { s with
    errors := before ++ s.errors
    grammar := { s.grammar with importCode := f s.grammar.importCode } }

/-- The same reaction in an amended state. -/
def Reaction.amend (before : List Diagnostic) (f : Option CodeBlock → Option CodeBlock) :
    Reaction → Reaction
  | .done s => .done (s.amend before f)
  | .again s => .again (s.amend before f)

section

variable (before : List Diagnostic) (f : Option CodeBlock → Option CodeBlock) (s : State)

@[simp] theorem State.amend_phase : (s.amend before f).phase = s.phase := rfl

@[simp] theorem State.amend_keyword : (s.amend before f).keyword = s.keyword := rfl

@[simp] theorem State.amend_tag : (s.amend before f).tag = s.tag := rfl

@[simp] theorem State.amend_openRule : (s.amend before f).openRule = s.openRule := rfl

@[simp] theorem State.amend_table : (s.amend before f).grammar.table = s.grammar.table := rfl

@[simp] theorem State.amend_rules : (s.amend before f).grammar.rules = s.grammar.rules := rfl

@[simp] theorem State.amend_rule? (id : RuleId) :
    (s.amend before f).grammar.rule? id = s.grammar.rule? id := rfl

@[simp] theorem State.amend_name (id : SymbolId) :
    (s.amend before f).grammar.name id = s.grammar.name id := rfl

@[simp] theorem State.amend_unionCode :
    (s.amend before f).grammar.unionCode = s.grammar.unionCode := rfl

@[simp] theorem State.amend_report (line : Nat) (problem : Problem) :
    (s.amend before f).report line problem = (s.report line problem).amend before f := by
  simp [report, amend]

theorem State.amend_goto (phase : Phase) :
    (s.amend before f).goto phase = (s.goto phase).amend before f := rfl

theorem Reaction.state_amend (r : Reaction) :
    (r.amend before f).state = r.state.amend before f := by
  cases r with
  | done s => rfl
  | again s => rfl

end

variable {before : List Diagnostic} {f : Option CodeBlock → Option CodeBlock}

/-! ## Parts of reactions -/

/-- A declaration looks at neither diagnostics nor imported code. -/
theorem declare_amend (k : Keyword) (t : Token) (s : State) :
    declare k t (s.amend before f) = (declare k t s).amend before f := by
  -- the name is interned and tagged in the same way, so the keyword finds the same symbol
  have hreport {s s' : State} (h : s' = s.amend before f) (problem : Problem) :
      s'.report t.line problem = (s.report t.line problem).amend before f := by
    rw [h, State.amend_report]
  unfold declare
  rw [State.amend_tag]
  cases k with
  | prec | union => cases s.tag <;> rfl
  | type | token | left | right | nonassoc =>
    dsimp only
    split
    · cases s.tag <;> rfl
    · cases s.tag <;> (apply hreport; rfl)
  | start =>
    dsimp only
    split
    · cases s.tag <;> (apply hreport; rfl)
    · cases s.tag with
      | none =>
        -- whether a start symbol is known is the same question in both states
        change (if s.grammar.declaredStart.isSome then _ else _) =
          State.amend before f (if s.grammar.declaredStart.isSome then _ else _)
        split
        · apply hreport
          rfl
        · rfl
      | some tag =>
        change (if s.grammar.declaredStart.isSome then _ else _) =
          State.amend before f (if s.grammar.declaredStart.isSome then _ else _)
        split
        · apply hreport
          rfl
        · rfl

theorem readUnion_amend (t : Token) (s : State) :
    readUnion t (s.amend before f) = (readUnion t s).amend before f := by
  unfold readUnion
  rw [State.amend_unionCode, State.amend_report]
  split
  · -- the code of `%union` is not that of the imports, so it is the same
    cases s.grammar.unionCode with
    | none => rfl
    | some first =>
      dsimp only
      rw [State.amend_report]
      rfl
  · rfl

/-- The check for empty alternatives adds its diagnostic behind all others. -/
theorem checkEmpty_amend (id : RuleId) (lhs : SymbolId) (line : Nat) (s : State) :
    checkEmpty id lhs line (s.amend before f) = (checkEmpty id lhs line s).amend before f := by
  unfold checkEmpty
  simp only [State.amend_table, State.amend_rules, State.amend_name, State.amend_report]
  split
  · rfl
  · rfl

/-- A bar does in an amended state what it does in the state itself. -/
theorem newAlternative_amend (id : RuleId) (line : Nat) (s : State) :
    newAlternative id line (s.amend before f) = (newAlternative id line s).amend before f := by
  unfold newAlternative
  simp only [State.amend_rule?, checkEmpty_amend]
  split
  · rfl
  · split
    · split
      · rfl
      · rfl
    · rfl

theorem attachCode_amend (id : RuleId) (t : Token) (s : State) :
    attachCode id t (s.amend before f) = (attachCode id t s).amend before f := by
  unfold attachCode
  simp only [State.amend_rule?, State.amend_name, State.amend_report]
  split
  · rfl
  · split
    · rfl
    · rfl

/-- A semicolon does in an amended state what it does in the state itself. -/
theorem endRule_amend (id : RuleId) (line : Nat) (s : State) :
    endRule id line (s.amend before f) = (endRule id line s).amend before f := by
  have hclose : { s.amend before f with openRule := none } =
      { s with openRule := none }.amend before f := rfl
  -- the rule is closed first, and then it is checked
  unfold endRule
  simp only [hclose, State.amend_rule?, checkEmpty_amend]
  split
  · split
    · rfl
    · rfl
  · rfl

/-! ## Tokens -/

/-- Where the block at the top is read, only the diagnostics may be amended. -/
theorem react_amend (t : Token) {s : State} (hf : s.phase = .importBlock → f = id) :
    react t (s.amend before f) = (react t s).amend before f := by
  unfold react
  rw [State.amend_phase]
  cases hs : s.phase with
  | preamble =>
    dsimp only [reactPreamble]
    rw [State.amend_report]
    split <;> rfl
  | importBlock =>
    -- here the imported code is written, so it must not have been amended
    rw [hf hs]
    dsimp only [reactImportBlock]
    rw [State.amend_report]
    split <;> rfl
  | declaration =>
    dsimp only [reactDeclaration]
    rw [State.amend_report]
    split <;> rfl
  | keyword =>
    have hskip : { s.amend before f with tag := none, keyword := none, phase := .declaredNames } =
        { s with tag := none, keyword := none, phase := .declaredNames }.amend before f := rfl
    simp only [reactKeyword, hskip, State.amend_report]
    split
    · rfl
    · split <;> rfl
  | tagOrBlock =>
    simp only [reactTagOrBlock, State.amend_keyword, readUnion_amend]
    split
    · rfl
    · split <;> rfl
  | declaredNames =>
    simp only [reactDeclaredNames, State.amend_keyword, State.amend_report, declare_amend]
    split
    · rfl
    · split
      · rfl
      · split <;> rfl
  | ruleHead =>
    simp only [reactRuleHead, State.amend_rules, State.amend_report]
    split
    · split <;> rfl
    · split <;> rfl
  | colon =>
    dsimp only [reactColon]
    rw [State.amend_report]
    split <;> rfl
  | ruleBody =>
    -- the parts of the reaction look at what an amendment leaves as it is
    simp only [reactRuleBody, State.amend_openRule, State.amend_report, newAlternative_amend,
      attachCode_amend, endRule_amend]
    split
    · split <;> rfl
    · split
      · rfl
      split
      · rfl
      split
      · rfl
      split
      · rfl
      split <;> rfl
  | precKeyword =>
    dsimp only [reactPrecKeyword]
    rw [State.amend_report]
    split <;> rfl
  | precSymbol =>
    simp only [reactPrecSymbol, State.amend_goto, State.amend_table, State.amend_openRule,
      State.amend_report]
    split <;> rfl
  | afterPrec =>
    simp only [reactAfterPrec, State.amend_openRule, State.amend_report, newAlternative_amend,
      attachCode_amend, endRule_amend]
    split
    · rfl
    · split
      · rfl
      split
      · rfl
      split <;> rfl
  | trailerMark =>
    dsimp only [reactTrailerMark]
    rw [State.amend_report]
    split <;> rfl
  | trailer => rfl

/-- Once the block at the top has been passed, its code may be amended as well. -/
theorem consume_amend (t : Token) {s : State} (hf : s.phase.part = 0 → f = id) :
    consume t (s.amend before f) = (consume t s).amend before f := by
  have himport {s : State} (h : s.phase.part = 0 → f = id) : s.phase = .importBlock → f = id :=
    fun hphase => h (by rw [hphase]; rfl)
  have hfirst : react t (s.amend before f) = (react t s).amend before f :=
    react_amend t (himport hf)
  unfold consume
  rw [hfirst]
  cases hreact : react t s with
  | done s' => rfl
  | again s' =>
    -- the token is read again behind the block
    have hagain : s'.phase.part = 0 → f = id := by
      rcases phase_of_again hreact with h | h | h <;> simp [h, Phase.part]
    simp only [Reaction.amend]
    rw [react_amend t (himport hagain), Reaction.state_amend]

/-- Amending a state commutes with reading. -/
theorem consumeAll_amend (ts : List Token) {s : State} (hf : s.phase.part = 0 → f = id) :
    consumeAll ts (s.amend before f) = (consumeAll ts s).amend before f := by
  induction ts generalizing s with
  | nil => rfl
  | cons t ts ih =>
    -- what has been passed is not entered again
    have hlater : (consume t s).phase.part = 0 → f = id :=
      fun hhead => hf (Nat.le_zero.mp (hhead ▸ part_consume t s))
    exact (congrArg (consumeAll ts) (consume_amend t hf)).trans (ih hlater)

/-- Once the block at the top has been passed, the imported code stays. -/
theorem importCode_consumeAll (ts : List Token) {s : State} (hpart : s.phase.part ≠ 0) :
    (consumeAll ts s).grammar.importCode = s.grammar.importCode := by
  -- overwriting the code with itself changes nothing, neither before the tokens nor behind them
  have hsame : s.amend [] (fun _ => s.grammar.importCode) = s := rfl
  have hread : consumeAll ts (s.amend [] fun _ => s.grammar.importCode) =
      (consumeAll ts s).amend [] fun _ => s.grammar.importCode :=
    consumeAll_amend ts fun hhead => absurd hhead hpart
  rw [hsame] at hread
  exact congrArg (fun s => s.grammar.importCode) hread

/-- What is read adds its diagnostics to those from before, which it does not look at. -/
theorem consumeAll_eq_amend (ts : List Token) (s : State) :
    consumeAll ts s = (consumeAll ts { s with errors := [] }).amend s.errors id := by
  rw [← consumeAll_amend ts fun _ => rfl]
  simp [State.amend]

/-- Diagnostics are only added. -/
theorem errors_consumeAll (ts : List Token) (s : State) :
    s.errors <+: (consumeAll ts s).errors := by
  rw [consumeAll_eq_amend]
  exact List.prefix_append _ _

end YaccGrammar.Reading
