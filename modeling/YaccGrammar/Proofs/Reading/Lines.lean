import YaccGrammar.Proofs.Reading.Frame

/-!
# Lines do not matter

Lines are carried along from the tokens into rules, codes and diagnostics, but no decision depends
on them. Reading commutes with forgetting all lines, so token lists with the same texts lead to
states that differ in lines only.

## Main statements

- `unplaced_consumeAll`: forgetting lines commutes with reading.
- `unplaced_consumeAll_eq`: the texts of the tokens determine everything but lines.
-/

namespace YaccGrammar

/-! ## Forgetting lines -/

/-- The token on no line. -/
def Token.unplaced (t : Token) : Token := { t with line := 0 }

namespace Token

variable (t : Token)

@[simp] theorem unplaced_line : t.unplaced.line = 0 := rfl

@[simp] theorem unplaced_text : t.unplaced.text = t.text := rfl

@[simp] theorem unplaced_is (c : Char) : t.unplaced.is c = t.is c := rfl

@[simp] theorem unplaced_first : t.unplaced.first = t.first := rfl

@[simp] theorem unplaced_isBlock : t.unplaced.isBlock = t.isBlock := rfl

@[simp] theorem unplaced_isImportBlock : t.unplaced.isImportBlock = t.isImportBlock := rfl

@[simp] theorem unplaced_trimmed (front back : Nat) :
    t.unplaced.trimmed front back = t.trimmed front back := rfl

end Token

/-- The code on no line. -/
def CodeBlock.unplaced (b : CodeBlock) : CodeBlock := { b with line := 0 }

/-- The rule on no line. -/
def Rule.unplaced (r : Rule) : Rule := { r with line := 0, code := r.code.map CodeBlock.unplaced }

/-- The only problem that cites a line is a second `%union`. -/
def Problem.unplaced : Problem → Problem
  | repeatedUnion _ => repeatedUnion 0
  | p => p

/-- The diagnostic on no line. -/
def Diagnostic.unplaced (d : Diagnostic) : Diagnostic where
  location := { d.location with line := 0 }
  problem := d.problem.unplaced

/-- The grammar without the lines of its rules and codes. -/
def Grammar.unplaced (g : Grammar) : Grammar :=
  { g with
    rules := g.rules.map Rule.unplaced
    importCode := g.importCode.map CodeBlock.unplaced
    unionCode := g.unionCode.map CodeBlock.unplaced
    trailingCode := g.trailingCode.map CodeBlock.unplaced }

namespace Reading

/-- The state without lines. -/
def State.unplaced (s : State) : State :=
  { s with grammar := s.grammar.unplaced, errors := s.errors.map Diagnostic.unplaced }

/-- The reaction without lines. -/
def Reaction.unplaced : Reaction → Reaction
  | .done s => .done s.unplaced
  | .again s => .again s.unplaced

section

variable (s : State)

@[simp] theorem State.unplaced_phase : s.unplaced.phase = s.phase := rfl

@[simp] theorem State.unplaced_keyword : s.unplaced.keyword = s.keyword := rfl

@[simp] theorem State.unplaced_tag : s.unplaced.tag = s.tag := rfl

@[simp] theorem State.unplaced_openRule : s.unplaced.openRule = s.openRule := rfl

@[simp] theorem State.unplaced_table : s.unplaced.grammar.table = s.grammar.table := rfl

@[simp] theorem State.unplaced_declaredStart :
    s.unplaced.grammar.declaredStart = s.grammar.declaredStart := rfl

@[simp] theorem State.unplaced_name (id : SymbolId) :
    s.unplaced.grammar.name id = s.grammar.name id := rfl

/-- Forgetting lines is done rule by rule. -/
@[simp] theorem State.unplaced_rules :
    s.unplaced.grammar.rules = s.grammar.rules.map Rule.unplaced := rfl

/-- A rule is found where it was, without its line. -/
@[simp] theorem State.unplaced_rule? (id : RuleId) :
    s.unplaced.grammar.rule? id = (s.grammar.rule? id).map Rule.unplaced := List.getElem?_map

@[simp] theorem State.unplaced_unionCode :
    s.unplaced.grammar.unionCode = s.grammar.unionCode.map CodeBlock.unplaced := rfl

/-- A problem that is reported is forgotten to have a line. -/
@[simp] theorem State.unplaced_report (line : Nat) (problem : Problem) :
    (s.report line problem).unplaced = s.unplaced.report 0 problem.unplaced := by
  simp [report, unplaced, Diagnostic.unplaced]

@[simp] theorem State.unplaced_goto (phase : Phase) :
    (s.goto phase).unplaced = s.unplaced.goto phase := rfl

end

/-! ## Grammars -/

/-- A change of a rule that is the same without lines. -/
theorem unplaced_modifyRule (g : Grammar) (id : RuleId) {f f' : Rule → Rule}
    (h : ∀ r, (f r).unplaced = f' r.unplaced) :
    (g.modifyRule id f).unplaced = g.unplaced.modifyRule id f' := by
  have hrules : (g.rules.modify id f).map Rule.unplaced =
      (g.rules.map Rule.unplaced).modify id f' := by
    apply List.ext_getElem?
    intro i
    rw [List.getElem?_map, List.getElem?_modify, List.getElem?_modify, List.getElem?_map]
    cases g.rules[i]? with
    | none => rfl
    | some r =>
      -- the rule is the one that is changed, or it stays
      by_cases hi : id = i
      · simp [hi, h]
      · simp [hi]
  simp [Grammar.modifyRule, Grammar.unplaced, hrules]

/-- A change of a rule of the grammar that is the same without lines. -/
theorem State.unplaced_modifyRule (s : State) (id : RuleId) {f f' : Rule → Rule}
    (h : ∀ r, (f r).unplaced = f' r.unplaced) :
    (s.modifyGrammar (·.modifyRule id f)).unplaced =
      s.unplaced.modifyGrammar (·.modifyRule id f') := by
  simp only [State.unplaced, State.modifyGrammar, Reading.unplaced_modifyRule s.grammar id h]

/-- A new rule has its line from the token, and everything else without it. -/
theorem unplaced_addRule (g : Grammar) (lhs : SymbolId) (line : Nat) :
    (g.addRule lhs line).2.unplaced = (g.unplaced.addRule lhs 0).2 := by
  simp [Grammar.addRule, Grammar.unplaced, Rule.unplaced]

/-! ## Parts of reactions -/

/-- A declaration does not look at the line of its name. -/
theorem unplaced_declare (k : Keyword) (t : Token) (s : State) :
    (declare k t s).unplaced = declare k t.unplaced s.unplaced := by
  -- the name is interned and tagged in the same way, so the keyword finds the same symbol
  unfold declare
  rw [Token.unplaced_text, Token.unplaced_line, State.unplaced_tag]
  cases k with
  -- neither of these keywords declares anything
  | prec | union => cases s.tag <;> rfl
  | type | token | left | right | nonassoc =>
    dsimp only
    split
    · cases s.tag <;> rfl
    · rw [State.unplaced_report]
      cases s.tag <;> rfl
  | start =>
    dsimp only
    split
    · rw [State.unplaced_report]
      cases s.tag <;> rfl
    · cases s.tag with
      | none =>
        -- whether a start symbol is known does not depend on lines
        change State.unplaced (if s.grammar.declaredStart.isSome then _ else _) =
          if s.grammar.declaredStart.isSome then _ else _
        split
        · exact State.unplaced_report _ _ _
        · rfl
      | some tag =>
        change State.unplaced (if s.grammar.declaredStart.isSome then _ else _) =
          if s.grammar.declaredStart.isSome then _ else _
        split
        · exact State.unplaced_report _ _ _
        · rfl

/-- Behind `%union` only the diagnostic on a second block cites a line. -/
theorem unplaced_readUnion (t : Token) (s : State) :
    (readUnion t s).unplaced = readUnion t.unplaced s.unplaced := by
  unfold readUnion
  rw [Token.unplaced_isBlock, State.unplaced_unionCode]
  split
  · cases s.grammar.unionCode with
    | none => rfl
    -- the line of the first block is cited, and forgotten
    | some first =>
      exact congrArg (fun s => Reaction.done { s with keyword := none, phase := .declaration })
        (State.unplaced_report s t.line (.repeatedUnion first.line))
  · exact congrArg (fun s => Reaction.again { s with keyword := none, phase := .declaredNames })
      (State.unplaced_report s t.line (.missingUnionBlock t.text))

/-- The check for empty alternatives does not look at lines. -/
theorem unplaced_checkEmpty (id : RuleId) (lhs : SymbolId) (line : Nat) (s : State) :
    (checkEmpty id lhs line s).unplaced = checkEmpty id lhs 0 s.unplaced := by
  -- left-hand sides and right-hand sides have no lines
  have hrules : s.unplaced.grammar.rules.zipIdx.any (fun p =>
        p.1.lhs = lhs && p.2 ≠ id && p.1.rhs.isEmpty) =
      s.grammar.rules.zipIdx.any fun p =>
        p.1.lhs = lhs && p.2 ≠ id && p.1.rhs.isEmpty := by
    rw [State.unplaced_rules, List.zipIdx_map, List.any_map]
    rfl
  unfold checkEmpty
  dsimp only
  rw [hrules, State.unplaced_table]
  split
  · exact State.unplaced_report _ _ _
  · rfl

/-- A new alternative has its line from the token. -/
theorem unplaced_openNew (lhs : SymbolId) (line : Nat) (s : State) :
    (openNew lhs line s).unplaced = openNew lhs 0 s.unplaced := by
  have hadd := unplaced_addRule s.grammar lhs line
  simp only [openNew, State.unplaced] at hadd ⊢
  rw [hadd]
  simp [Grammar.addRule, Grammar.unplaced]

/-- A bar does the same without lines. -/
theorem unplaced_newAlternative (id : RuleId) (line : Nat) (s : State) :
    (newAlternative id line s).unplaced = newAlternative id 0 s.unplaced := by
  unfold newAlternative
  rw [State.unplaced_rule?]
  cases s.grammar.rule? id with
  | none => rfl
  | some rule =>
    have hflag : ((checkEmpty id rule.lhs line s).modifyGrammar
          (·.modifyTable (·.modify rule.lhs fun x => { x with nullable := true }))).unplaced =
        (checkEmpty id rule.lhs 0 s.unplaced).modifyGrammar
          (·.modifyTable (·.modify rule.lhs fun x => { x with nullable := true })) := by
      rw [← unplaced_checkEmpty id rule.lhs line]
      rfl
    -- a rule is blank without lines exactly if it is blank
    have hblank : (rule.unplaced.code.isNone && rule.unplaced.precSymbol.isNone) =
        (rule.code.isNone && rule.precSymbol.isNone) := by
      cases hcode : rule.code <;> simp [Rule.unplaced, hcode]
    have hrhs : rule.unplaced.rhs = rule.rhs := rfl
    simp only [Option.map_some]
    rw [hblank, hrhs]
    split
    · split
      · exact hflag
      · rw [unplaced_openNew, hflag]
        rfl
    · exact unplaced_openNew _ _ _

/-- A code block is given to the open rule, or reported, on whatever line it is. -/
theorem unplaced_attachCode (id : RuleId) (t : Token) (s : State) :
    (attachCode id t s).unplaced = attachCode id t.unplaced s.unplaced := by
  unfold attachCode
  rw [State.unplaced_rule?]
  cases s.grammar.rule? id with
  | none => rfl
  | some rule =>
    have hcode : rule.unplaced.code.isSome = rule.code.isSome := Option.isSome_map
    simp only [Option.map_some]
    rw [hcode]
    split
    · exact State.unplaced_report _ _ _
    · apply State.unplaced_modifyRule
      exact fun r => rfl

/-- A semicolon does the same without lines. -/
theorem unplaced_endRule (id : RuleId) (line : Nat) (s : State) :
    (endRule id line s).unplaced = endRule id 0 s.unplaced := by
  -- closing the rule has nothing to do with lines
  have hclose : { s.unplaced with openRule := none } = { s with openRule := none }.unplaced := rfl
  unfold endRule
  simp only [hclose, State.unplaced_rule?]
  cases s.grammar.rule? id with
  | none => rfl
  | some rule =>
    have hrhs : rule.unplaced.rhs = rule.rhs := rfl
    simp only [Option.map_some]
    rw [hrhs]
    split
    · exact congrArg (State.goto · .ruleHead) (unplaced_checkEmpty _ _ _ _)
    · rfl

/-- A symbol in an alternative has no line. -/
theorem unplaced_appendSymbol (id : RuleId) (name : String) (s : State) :
    (appendSymbol id name s).unplaced = appendSymbol id name s.unplaced := by
  apply State.unplaced_modifyRule { s with grammar := (s.grammar.intern name).2 }
  exact fun r => rfl

/-! ## Tokens -/

/-- Which keyword a token is does not depend on its line. -/
theorem unplaced_reactKeyword (t : Token) (s : State) :
    (reactKeyword t s).unplaced = reactKeyword t.unplaced s.unplaced := by
  dsimp only [reactKeyword]
  rw [Token.unplaced_is, Token.unplaced_text]
  split
  · rfl
  · apply congrArg Reaction.done
    split
    · exact State.unplaced_report _ _ _
    · rfl
    · exact State.unplaced_report _ _ _

/-- Among declared names a token is read the same on every line. -/
theorem unplaced_reactDeclaredNames (t : Token) (s : State) :
    (reactDeclaredNames t s).unplaced = reactDeclaredNames t.unplaced s.unplaced := by
  dsimp only [reactDeclaredNames]
  rw [Token.unplaced_is, State.unplaced_keyword, Token.unplaced_first]
  apply congrArg Reaction.done
  split
  · rfl
  split
  · rfl
  split
  · exact State.unplaced_report _ _ _
  · exact unplaced_declare _ t s

/-- Where a rule may begin a token is read the same on every line. -/
theorem unplaced_reactRuleHead (t : Token) (s : State) :
    (reactRuleHead t s).unplaced = reactRuleHead t.unplaced s.unplaced := by
  have hempty : s.unplaced.grammar.rules.isEmpty = s.grammar.rules.isEmpty := by simp
  dsimp only [reactRuleHead]
  rw [Token.unplaced_is, hempty, Token.unplaced_text]
  apply congrArg Reaction.done
  split
  · split
    · exact State.unplaced_report _ _ _
    · rfl
  split
  · exact congrArg (State.goto · .colon) (unplaced_openNew _ _ _)
  · exact congrArg (fun s => { s with openRule := none, phase := .ruleBody })
      (State.unplaced_report _ _ _)

/-- Inside an alternative a token is read the same on every line. -/
theorem unplaced_reactRuleBody (t : Token) (s : State) :
    (reactRuleBody t s).unplaced = reactRuleBody t.unplaced s.unplaced := by
  dsimp only [reactRuleBody]
  simp only [State.unplaced_openRule]
  apply congrArg Reaction.done
  cases s.openRule with
  -- without an open rule only a mark leads on
  | none =>
    dsimp only
    rw [Token.unplaced_is]
    split <;> rfl
  | some id =>
    dsimp only
    rw [Token.unplaced_is, Token.unplaced_is, Token.unplaced_is, Token.unplaced_first,
      Token.unplaced_text]
    split
    · exact unplaced_newAlternative _ _ _
    split
    · exact unplaced_attachCode _ _ _
    split
    · rfl
    split
    · exact unplaced_endRule _ _ _
    split
    · exact unplaced_appendSymbol _ _ _
    · exact State.unplaced_report _ _ _

/-- Behind `%prec` a token is read the same on every line. -/
theorem unplaced_reactPrecSymbol (t : Token) (s : State) :
    (reactPrecSymbol t s).unplaced = reactPrecSymbol t.unplaced s.unplaced := by
  have htable : (s.unplaced.goto .afterPrec).grammar.table = (s.goto .afterPrec).grammar.table :=
    rfl
  have hopen : (s.unplaced.goto .afterPrec).openRule = (s.goto .afterPrec).openRule := rfl
  dsimp only [reactPrecSymbol]
  rw [Token.unplaced_text, htable, hopen]
  apply congrArg Reaction.done
  split
  · apply State.unplaced_modifyRule (s.goto .afterPrec)
    exact fun r => rfl
  · exact State.unplaced_report _ _ _

/-- Behind a precedence a token is read the same on every line. -/
theorem unplaced_reactAfterPrec (t : Token) (s : State) :
    (reactAfterPrec t s).unplaced = reactAfterPrec t.unplaced s.unplaced := by
  dsimp only [reactAfterPrec]
  simp only [State.unplaced_openRule]
  apply congrArg Reaction.done
  cases s.openRule with
  | none => rfl
  | some id =>
    dsimp only
    rw [Token.unplaced_is, Token.unplaced_is, Token.unplaced_first, Token.unplaced_text]
    split
    · exact unplaced_attachCode _ _ _
    split
    · exact congrArg (State.goto · .ruleBody) (unplaced_newAlternative _ _ _)
    split
    · exact unplaced_endRule _ _ _
    · exact State.unplaced_report _ _ _

/-- Forgetting lines commutes with every reaction. -/
theorem unplaced_react (t : Token) (s : State) :
    (react t s).unplaced = react t.unplaced s.unplaced := by
  unfold react
  rw [State.unplaced_phase]
  cases s.phase with
  | preamble =>
    dsimp only [reactPreamble]
    rw [Token.unplaced_is]
    split
    · rfl
    · exact congrArg Reaction.done (State.unplaced_report _ _ _)
  | importBlock =>
    dsimp only [reactImportBlock]
    rw [Token.unplaced_isImportBlock]
    split
    · rfl
    · exact congrArg (fun s => Reaction.again (s.goto .keyword)) (State.unplaced_report _ _ _)
  | declaration =>
    dsimp only [reactDeclaration]
    rw [Token.unplaced_is]
    split
    · rfl
    · exact congrArg Reaction.done (State.unplaced_report _ _ _)
  | keyword => exact unplaced_reactKeyword t s
  | tagOrBlock =>
    dsimp only [reactTagOrBlock]
    rw [State.unplaced_keyword, Token.unplaced_first]
    split
    · exact unplaced_readUnion t s
    split
    · rfl
    · rfl
  | declaredNames => exact unplaced_reactDeclaredNames t s
  | ruleHead => exact unplaced_reactRuleHead t s
  | colon =>
    dsimp only [reactColon]
    rw [Token.unplaced_is]
    split
    · rfl
    · exact congrArg (fun s => Reaction.again (s.goto .ruleBody)) (State.unplaced_report _ _ _)
  | ruleBody => exact unplaced_reactRuleBody t s
  | precKeyword =>
    dsimp only [reactPrecKeyword]
    rw [Token.unplaced_text]
    apply congrArg Reaction.done
    split
    · rfl
    · exact congrArg (State.goto · .ruleBody) (State.unplaced_report _ _ _)
  | precSymbol => exact unplaced_reactPrecSymbol t s
  | afterPrec => exact unplaced_reactAfterPrec t s
  | trailerMark =>
    dsimp only [reactTrailerMark]
    rw [Token.unplaced_is]
    apply congrArg Reaction.done
    split
    · rfl
    · exact State.unplaced_report _ _ _
  -- the trailing code has a line of its own, which is forgotten
  | trailer =>
    cases hcode : s.grammar.trailingCode <;>
      simp [reactTrailer, Reaction.unplaced, State.unplaced, State.modifyGrammar, Grammar.unplaced,
        CodeBlock.unplaced, hcode]

/-- What a reaction leaves without lines is what it leaves, without lines. -/
theorem unplaced_state (r : Reaction) : r.unplaced.state = r.state.unplaced := by
  cases r with
  | done s => rfl
  | again s => rfl

/-- Forgetting lines commutes with using up a token, be it read once or twice. -/
theorem unplaced_consume (t : Token) (s : State) :
    (consume t s).unplaced = consume t.unplaced s.unplaced := by
  unfold consume
  rw [← unplaced_react]
  cases react t s with
  | done s' => rfl
  | again s' =>
    simp only [Reaction.unplaced]
    rw [← unplaced_react, unplaced_state]

/-- Forgetting lines commutes with reading. -/
theorem unplaced_consumeAll (ts : List Token) (s : State) :
    (consumeAll ts s).unplaced = consumeAll (ts.map Token.unplaced) s.unplaced := by
  induction ts generalizing s with
  | nil => rfl
  | cons t ts ih =>
    rw [List.map_cons, consumeAll_cons, consumeAll_cons, ih, unplaced_consume]

/-- The texts of the tokens determine everything but lines. -/
theorem unplaced_consumeAll_eq {ts ts' : List Token} (h : ts.map Token.text = ts'.map Token.text)
    (s : State) : (consumeAll ts s).unplaced = (consumeAll ts' s).unplaced := by
  -- without lines a token is its text
  have htokens (us : List Token) :
      us.map Token.unplaced = (us.map Token.text).map fun text => ⟨text, 0⟩ := by
    rw [List.map_map]
    rfl
  rw [unplaced_consumeAll, unplaced_consumeAll, htokens, htokens, h]

end Reading

end YaccGrammar
