import YaccGrammar.Proofs.Reading.Parts

/-!
# What a token can write

The changes of a state from which every reaction is put together. What tells the kinds of change
apart is which of them can overwrite something: a code or a start symbol is set where there was
none, the open rule is filled up, and only among the declarations a symbol gets a precedence, a tag
or another kind.

## Main statement

- `changes_react`: a reaction is made of these changes, and among the rules or behind them of those
  that declare nothing.
-/

namespace YaccGrammar

/-- A rule may become another one: symbols are appended to its right-hand side, and code is kept
once it is there. -/
structure Rule.GrowsTo (r r' : Rule) : Prop where
  lhs : r'.lhs = r.lhs
  line : r'.line = r.line
  nextLhs : r'.nextLhs = r.nextLhs
  rhs : r.rhs <+: r'.rhs
  code : r.code.isSome = true → r'.code = r.code

namespace Reading

/-! ## Changes -/

/-- One change of a state. The changes of a declaration are told apart by a flag. -/
inductive Change : Bool → State → State → Prop where
  | turn {b : Bool} (s : State) (phase : Phase) (keyword : Option Keyword) (tag : Option String) :
      Change b s { s with phase, keyword, tag }
  | close {b : Bool} (s : State) : Change b s { s with openRule := none }
  | report {b : Bool} (s : State) (line : Nat) (problem : Problem) :
      Change b s (s.report line problem)
  | intern {b : Bool} (s : State) (n : String) :
      Change b s { s with grammar := (s.grammar.intern n).2 }
  | flag {b : Bool} (s : State) (id : SymbolId) :
      Change b s (s.modifyGrammar
        (·.modifyTable (·.modify id fun x => { x with nullable := true })))
  | openNew {b : Bool} (s : State) (lhs : SymbolId) (line : Nat) :
      Change b s (openNew lhs line s)
  | fill {b : Bool} {s : State} {k : RuleId} {f : Rule → Rule} (hopen : s.openRule = some k)
      (hf : ∀ r, s.grammar.rule? k = some r → r.GrowsTo (f r)) :
      Change b s (s.modifyGrammar (·.modifyRule k f))
  | trailingCode {b : Bool} (s : State) (code : Option CodeBlock) :
      Change b s (s.modifyGrammar fun g => { g with trailingCode := code })
  | importCode {s : State} (code : CodeBlock) (h : s.grammar.importCode = none) :
      Change true s (s.modifyGrammar fun g => { g with importCode := some code })
  | unionCode {s : State} (code : CodeBlock) (h : s.grammar.unionCode = none) :
      Change true s (s.modifyGrammar fun g => { g with unionCode := some code })
  | start {s : State} (id : SymbolId) (h : s.grammar.declaredStart = none) :
      Change true s (s.modifyGrammar fun g => { g with declaredStart := some id })
  | symbol (s : State) (id : SymbolId) {f : Symbol → Symbol} (hname : ∀ x, (f x).name = x.name)
      (hnullable : ∀ x, (f x).nullable = x.nullable) :
      Change true s (s.modifyGrammar (·.modifyTable (·.modify id f)))
  | kind (s : State) (id : SymbolId) (kind : SymbolKind) :
      Change true s (s.modifyGrammar (·.modifyTable (·.setKind id kind)))
  | rank (s : State) : Change true s { s with nextPrecedence := s.nextPrecedence + 1 }

/-- Changes of a state, one after the other. -/
abbrev Changes (b : Bool) : State → State → Prop := Relation.ReflTransGen (Change b)

variable {b : Bool} {t : Token} {s s' : State}

theorem Changes.goto (h : Changes b s s') (phase : Phase) : Changes b s (s'.goto phase) :=
  h.tail (.turn s' phase s'.keyword s'.tag)

theorem Changes.report (h : Changes b s s') (line : Nat) (problem : Problem) :
    Changes b s (s'.report line problem) :=
  h.tail (.report s' line problem)

/-! ## Declarations -/

/-- A declaration interns its name, tags it, and then does what its keyword says. -/
theorem changes_declare (k : Keyword) (t : Token) (s : State) : Changes true s (declare k t s) := by
  unfold declare
  lift_lets
  intro id g
  -- the name becomes a symbol and gets the tag, whether or not it is accepted
  have hinterned : Changes true s { s with grammar := (s.grammar.intern t.text).2 } :=
    .single (.intern s t.text)
  have hnamed : Changes true s { s with grammar := g } := by
    dsimp only [g]
    split
    · exact hinterned.tail (.symbol _ _ (fun _ => rfl) fun _ => rfl)
    · exact hinterned
  clear_value g
  cases k with
  | type =>
    dsimp only
    split
    · exact hnamed.tail (.kind _ _ _)
    · exact hnamed.report _ _
  | token =>
    dsimp only
    split
    · exact hnamed.tail (.kind _ _ _)
    · exact hnamed.report _ _
  | left | right | nonassoc =>
    dsimp only
    split
    · refine ((hnamed.tail (.rank _)).tail (.kind _ id .terminal)).tail (.symbol _ id ?_ ?_)
      · exact fun _ => rfl
      · exact fun _ => rfl
    · exact hnamed.report _ _
  | start =>
    dsimp only
    split
    · exact hnamed.report _ _
    split
    · exact hnamed.report _ _
    · -- a start symbol is set only where there is none
      next hnone => exact hnamed.tail (.start id (by simpa using hnone))
  | prec | union => exact hnamed

/-- Behind `%union` the code is set once. -/
theorem changes_readUnion (t : Token) (s : State) : Changes true s (readUnion t s).state := by
  unfold readUnion
  split
  · simp only [Reaction.state]
    cases hunion : s.grammar.unionCode with
    | none => exact (Relation.ReflTransGen.single (.unionCode _ hunion)).tail (.turn _ _ _ _)
    | some first => exact (Changes.report .refl _ _).tail (.turn _ _ _ _)
  · exact (Changes.report .refl _ _).tail (.turn _ _ _ _)

/-! ## Rules -/

theorem changes_checkEmpty (id : RuleId) (lhs : SymbolId) (line : Nat) (s : State) :
    Changes b s (checkEmpty id lhs line s) := by
  unfold checkEmpty
  dsimp only
  split
  · exact .report .refl _ _
  · exact .refl

/-- A bar may flag a symbol, and opens an alternative. -/
theorem changes_newAlternative (id : RuleId) (line : Nat) (s : State) :
    Changes b s (newAlternative id line s) := by
  unfold newAlternative
  split
  · exact .refl
  · next rule hrule =>
    dsimp only
    split
    · -- an empty alternative is checked, and its left-hand side is flagged
      have hflagged := (changes_checkEmpty (b := b) id rule.lhs line s).tail (.flag _ rule.lhs)
      split
      · exact hflagged
      · exact hflagged.tail (.openNew _ _ _)
    · exact .single (.openNew _ _ _)

/-- The first block of code counts. -/
theorem changes_attachCode {id : RuleId} (hopen : s.openRule = some id) (t : Token) :
    Changes b s (attachCode id t s) := by
  unfold attachCode
  split
  · exact .refl
  · next rule hrule =>
    split
    · exact .report .refl _ _
    · -- there is no code yet, so nothing is overwritten
      next hcode =>
      refine .single (.fill hopen fun r hr => ⟨rfl, rfl, rfl, List.prefix_refl _, fun h => ?_⟩)
      rw [hrule, Option.some_inj] at hr
      exact absurd (hr ▸ h) hcode

/-- A semicolon closes the open rule. -/
theorem changes_endRule (id : RuleId) (line : Nat) (s : State) :
    Changes b s (endRule id line s) := by
  have hclosed : Changes b s { s with openRule := none } := .single (.close s)
  unfold endRule
  dsimp only
  refine Changes.goto ?_ .ruleHead
  split
  · split
    · exact hclosed.trans (changes_checkEmpty _ _ _ _)
    · exact hclosed
  · exact hclosed

/-- A symbol in an alternative is interned and put at its end. -/
theorem changes_appendSymbol {id : RuleId} (hopen : s.openRule = some id) (name : String) :
    Changes b s (appendSymbol id name s) := by
  let interned : State := { s with grammar := (s.grammar.intern name).2 }
  have hstill : interned.openRule = some id := hopen
  refine (Relation.ReflTransGen.single (.intern s name)).tail (.fill hstill ?_)
  exact fun _ _ => ⟨rfl, rfl, rfl, List.prefix_append _ _, fun _ => rfl⟩

/-! ## Reactions -/

theorem changes_reactKeyword (t : Token) (s : State) :
    Changes b s (reactKeyword t s).state := by
  unfold reactKeyword
  split
  · exact .goto .refl _
  · -- anything but a mark leaves the keywords, whether it is one or not
    have hskip : Changes b s { s with tag := none, keyword := none, phase := .declaredNames } :=
      .single (.turn s _ _ _)
    simp only [Reaction.state]
    split
    · exact hskip.report _ _
    · exact hskip.tail (.turn _ _ _ _)
    · exact hskip.report _ _

theorem changes_reactDeclaredNames (t : Token) (s : State) :
    Changes true s (reactDeclaredNames t s).state := by
  simp only [reactDeclaredNames, Reaction.state]
  split
  · exact .single (.turn _ _ _ _)
  split
  · exact .refl
  split
  · exact .report .refl _ _
  · exact changes_declare _ t s

/-- Where a rule may begin, a nonterminal opens one. -/
theorem changes_reactRuleHead (t : Token) (s : State) :
    Changes b s (reactRuleHead t s).state := by
  simp only [reactRuleHead, Reaction.state]
  split
  · split
    · exact .report .refl _ _
    · exact .goto .refl _
  split
  · exact .goto ((Relation.ReflTransGen.single (.intern s t.text)).tail (.openNew _ _ _)) _
  · exact .goto ((Changes.report .refl _ _).tail (.close _)) _

/-- Inside an alternative the open rule is filled up, or another one is opened. -/
theorem changes_reactRuleBody (t : Token) (s : State) :
    Changes b s (reactRuleBody t s).state := by
  simp only [reactRuleBody, Reaction.state]
  split
  · split
    · exact .goto .refl _
    · exact .refl
  -- a rule is open, so it may be filled up
  next hopen =>
  split
  · exact changes_newAlternative _ _ s
  split
  · exact changes_attachCode hopen t
  split
  · exact .goto .refl _
  split
  · exact changes_endRule _ _ s
  split
  · exact changes_appendSymbol hopen _
  · exact .report .refl _ _

theorem changes_reactPrecSymbol (t : Token) (s : State) :
    Changes b s (reactPrecSymbol t s).state := by
  have hmoved : Changes b s (s.goto .afterPrec) := .goto .refl _
  simp only [reactPrecSymbol, Reaction.state]
  split
  · next hopen =>
    exact hmoved.tail (.fill hopen fun _ _ => ⟨rfl, rfl, rfl, List.prefix_refl _, fun _ => rfl⟩)
  · exact hmoved.report _ _

theorem changes_reactAfterPrec (t : Token) (s : State) :
    Changes b s (reactAfterPrec t s).state := by
  simp only [reactAfterPrec, Reaction.state]
  split
  · exact .goto .refl _
  next hopen =>
  split
  · exact changes_attachCode hopen t
  split
  · exact (changes_newAlternative _ _ s).goto _
  split
  · exact changes_endRule _ _ s
  · exact .report .refl _ _

/-- A reaction is made of changes, and behind the declarations of those that declare nothing. -/
theorem changes_react (hs : Tidy s) (t : Token) :
    Changes (decide (s.phase.part < 2)) s (react t s).state := by
  unfold react
  -- only the phases of the declarations need a change of the flagged kinds
  cases hphase : s.phase with
  | preamble =>
    simp only [reactPreamble, Reaction.state]
    split
    · exact .goto .refl _
    · exact .report .refl _ _
  | importBlock =>
    simp only [reactImportBlock]
    split
    · -- before the block at the top is read there is no imported code
      exact .goto (.single (.importCode _ (hs.importCode (by rw [hphase]; rfl)))) _
    · exact .goto (.report .refl _ _) _
  | declaration =>
    simp only [reactDeclaration, Reaction.state]
    split
    · exact .goto .refl _
    · exact .report .refl _ _
  | keyword => exact changes_reactKeyword t s
  | tagOrBlock =>
    simp only [reactTagOrBlock]
    split
    · exact changes_readUnion t s
    split
    · exact .single (.turn _ _ _ _)
    · exact .goto .refl _
  | declaredNames => exact changes_reactDeclaredNames t s
  | ruleHead => exact changes_reactRuleHead t s
  | colon =>
    simp only [reactColon]
    split
    · exact .goto .refl _
    · exact .goto (.report .refl _ _) _
  | ruleBody => exact changes_reactRuleBody t s
  | precKeyword =>
    simp only [reactPrecKeyword, Reaction.state]
    split
    · exact .goto .refl _
    · exact .goto (.report .refl _ _) _
  | precSymbol => exact changes_reactPrecSymbol t s
  | afterPrec => exact changes_reactAfterPrec t s
  | trailerMark =>
    simp only [reactTrailerMark, Reaction.state]
    split
    · exact .goto .refl _
    · exact .report .refl _ _
  | trailer => exact .single (.trailingCode s _)

end Reading

end YaccGrammar
