import Mathlib.Logic.Relation
import YaccGrammar.Proofs.Reading.Frame
import YaccGrammar.Proofs.Symbol.Intern

/-!
# What a token can do

All that a token can do to a state, said once: to which phases it can lead, in which ways it changes
the grammar, and which problems it reports. The grammar only grows: its symbols keep their names,
and its rules their left-hand sides and their places.

## Main statements

- `phase_react_mem`: the phases to which a reaction leads.
- `effect_react`, `effect_consumeAll`: what reading does to a grammar and to the diagnostics.
- `consume_induction`, `consumeAll_induction`: what every reaction keeps is kept by reading.
- `rules_length_le_of_edits`: no rule is ever taken back.
-/

namespace YaccGrammar

/-! ## Phases -/

/-- The phases to which a token can lead. -/
def Phase.next : Phase → List Phase
  | preamble => [preamble, importBlock]
  | importBlock => [declaration, keyword]
  | declaration => [declaration, keyword]
  | keyword => [ruleHead, declaredNames, tagOrBlock]
  | tagOrBlock => [declaration, declaredNames]
  | declaredNames => [declaredNames, keyword]
  | ruleHead => [ruleHead, trailerMark, colon, ruleBody]
  | colon => [ruleBody]
  | ruleBody => [ruleBody, ruleHead, precKeyword]
  | precKeyword => [ruleBody, precSymbol]
  | precSymbol => [afterPrec]
  | afterPrec => [afterPrec, ruleBody, ruleHead]
  | trailerMark => [trailerMark, trailer]
  | trailer => [trailer]

/-! ## Grammars -/

/-- One change of a grammar while it is read. -/
inductive Edit : Grammar → Grammar → Prop where
  | codes (g : Grammar) (importCode unionCode trailingCode : Option CodeBlock) :
      Edit g { g with importCode, unionCode, trailingCode }
  | start (g : Grammar) (id : SymbolId) : Edit g { g with declaredStart := some id }
  | intern (g : Grammar) (n : String) : Edit g (g.intern n).2
  | symbol (g : Grammar) (id : SymbolId) {f : Symbol → Symbol}
      (hname : ∀ x, (f x).name = x.name) (hfirst : ∀ x, (f x).firstRule = x.firstRule) :
      Edit g (g.modifyTable (·.modify id f))
  | kind (g : Grammar) (id : SymbolId) (kind : SymbolKind) :
      Edit g (g.modifyTable (·.setKind id kind))
  | rule (g : Grammar) (id : RuleId) {f : Rule → Rule} (hlhs : ∀ r, (f r).lhs = r.lhs)
      (hnext : ∀ r, (f r).nextLhs = r.nextLhs) : Edit g (g.modifyRule id f)
  | addRule (g : Grammar) {lhs : SymbolId} (line : Nat)
      (hlhs : lhs < g.table.size ∨ ∃ r ∈ g.rules, r.lhs = lhs) : Edit g (g.addRule lhs line).2

/-- Changes of a grammar, one after the other. -/
abbrev Edits : Grammar → Grammar → Prop := Relation.ReflTransGen Edit

theorem Edit.edits {g g' : Grammar} (h : Edit g g') : Edits g g' := .single h

/-- No change takes a rule back. -/
theorem rules_length_le_of_edit {g g' : Grammar} (h : Edit g g') :
    g.rules.length ≤ g'.rules.length := by
  -- only one of the changes adds a rule, and none removes one
  cases h with
  | codes | start | intern | symbol | kind => exact Nat.le_refl _
  | rule g id => simp [Grammar.modifyRule]
  | addRule g line => simp [Grammar.addRule]

/-- No rule is ever taken back. -/
theorem rules_length_le_of_edits {g g' : Grammar} (h : Edits g g') :
    g.rules.length ≤ g'.rules.length := by
  induction h with
  | refl => exact Nat.le_refl _
  | tail _ hedit ih => exact Nat.le_trans ih (rules_length_le_of_edit hedit)

namespace Reading

/-! ## Effects -/

/-- What a token does to a state besides moving it to another phase: the grammar is edited,
precedences are given away, and problems are reported on the line of the token. None of them stops
the reading. -/
structure Effect (t : Token) (s s' : State) : Prop where
  file : s'.file = s.file
  grammar : Edits s.grammar s'.grammar
  nextPrecedence : s.nextPrecedence ≤ s'.nextPrecedence
  errors : ∃ problems : List Problem,
    s'.errors = s.errors ++ problems.map (Diagnostic.mk ⟨s.file, t.line⟩ ·) ∧
      ∀ p ∈ problems, p.isFatal = false

namespace Effect

variable {t : Token} {s s' s'' : State}

/-- Phase, declaration and open rule do not matter. -/
theorem of_eq (hfile : s'.file = s.file) (hgrammar : s'.grammar = s.grammar)
    (hnext : s'.nextPrecedence = s.nextPrecedence) (herrors : s'.errors = s.errors) :
    Effect t s s' where
  file := hfile
  grammar := by rw [hgrammar]
  nextPrecedence := hnext.ge
  errors := ⟨[], by simp [herrors], by simp⟩

/-- A token may do nothing. -/
theorem refl (t : Token) (s : State) : Effect t s s := .of_eq rfl rfl rfl rfl

/-- What is done in two steps is done by the token. -/
theorem trans (h : Effect t s s') (h' : Effect t s' s'') : Effect t s s'' where
  file := h'.file.trans h.file
  grammar := h.grammar.trans h'.grammar
  nextPrecedence := h.nextPrecedence.trans h'.nextPrecedence
  errors := by
    obtain ⟨problems, herrors, hfatal⟩ := h.errors
    obtain ⟨problems', herrors', hfatal'⟩ := h'.errors
    refine ⟨problems ++ problems', ?_, ?_⟩
    · rw [herrors', herrors, h.file, List.map_append, List.append_assoc]
    · exact List.forall_mem_append.mpr ⟨hfatal, hfatal'⟩

theorem goto (h : Effect t s s') (phase : Phase) : Effect t s (s'.goto phase) :=
  h.trans (.of_eq rfl rfl rfl rfl)

/-- A problem that does not stop the reading may be reported. -/
theorem report (t : Token) (s : State) {p : Problem} (hp : p.isFatal = false) :
    Effect t s (s.report t.line p) where
  file := rfl
  grammar := .refl
  nextPrecedence := Nat.le_refl _
  errors := ⟨[p], rfl, by simpa using hp⟩

/-- A precedence is given away. -/
theorem rank (t : Token) (s : State) :
    Effect t s { s with nextPrecedence := s.nextPrecedence + 1 } where
  file := rfl
  grammar := .refl
  nextPrecedence := Nat.le_succ _
  errors := ⟨[], by simp, by simp⟩

/-- The grammar may be edited. -/
theorem edit (t : Token) {s : State} {g : Grammar} (h : Edits s.grammar g) :
    Effect t s { s with grammar := g } where
  file := rfl
  grammar := h
  nextPrecedence := Nat.le_refl _
  errors := ⟨[], by simp, by simp⟩

/-- A symbol may be changed if it keeps its name and its rules. -/
theorem modifySymbol (t : Token) (s : State) (id : SymbolId) {f : Symbol → Symbol}
    (hname : ∀ x, (f x).name = x.name) (hfirst : ∀ x, (f x).firstRule = x.firstRule) :
    Effect t s (s.modifyGrammar (·.modifyTable (·.modify id f))) :=
  .edit t (Edit.symbol s.grammar id hname hfirst).edits

/-- A rule may be changed if it keeps its left-hand side and its link. -/
theorem modifyRule (t : Token) (s : State) (id : RuleId) {f : Rule → Rule}
    (hlhs : ∀ r, (f r).lhs = r.lhs) (hnext : ∀ r, (f r).nextLhs = r.nextLhs) :
    Effect t s (s.modifyGrammar (·.modifyRule id f)) :=
  .edit t (Edit.rule s.grammar id hlhs hnext).edits

end Effect

/-! ## Parts of reactions -/

/-- A declaration edits the grammar, and reports at most one problem. -/
theorem effect_declare (k : Keyword) (t : Token) (s : State) : Effect t s (declare k t s) := by
  unfold declare
  lift_lets
  intro id g
  -- the name is interned and tagged first
  have hg : Edits s.grammar g := by
    have hintern : Edits s.grammar (s.grammar.intern t.text).2 := (Edit.intern _ _).edits
    dsimp only [g]
    split
    · exact hintern.tail (.symbol _ _ (fun _ => rfl) fun _ => rfl)
    · exact hintern
  clear_value g
  have hnamed : Effect t s { s with grammar := g } := .edit t hg
  cases k with
  | type =>
    dsimp only
    split
    · exact .edit t (hg.tail (.kind _ _ _))
    · exact hnamed.trans (.report t _ rfl)
  | token =>
    dsimp only
    split
    · exact .edit t (hg.tail (.kind _ _ _))
    · exact hnamed.trans (.report t _ rfl)
  -- a precedence is given away before the symbol is changed
  | left | right | nonassoc =>
    dsimp only
    split
    · refine (Effect.rank t s).trans (.edit t ?_)
      exact (hg.tail (.kind _ _ _)).tail (.symbol _ _ (fun _ => rfl) fun _ => rfl)
    · exact hnamed.trans (.report t _ rfl)
  | start =>
    dsimp only
    split
    · exact hnamed.trans (.report t _ rfl)
    split
    · exact hnamed.trans (.report t _ rfl)
    · exact .edit t (hg.tail (.start _ _))
  | prec | union => exact hnamed

theorem effect_readUnion (t : Token) (s : State) : Effect t s (readUnion t s).state := by
  unfold readUnion
  split
  · simp only [Reaction.state]
    cases s.grammar.unionCode with
    -- the first block is kept, and a later one is reported
    | none => exact (Effect.edit t (Edit.codes _ _ _ _).edits).trans (.of_eq rfl rfl rfl rfl)
    | some first => exact (Effect.report t s rfl).trans (.of_eq rfl rfl rfl rfl)
  · exact (Effect.report t s rfl).trans (.of_eq rfl rfl rfl rfl)

theorem effect_checkEmpty (id : RuleId) (lhs : SymbolId) (t : Token) (s : State) :
    Effect t s (checkEmpty id lhs t.line s) := by
  unfold checkEmpty
  dsimp only
  split
  · exact .report t s rfl
  · exact .refl t s

/-- A rule is opened for a symbol that is known, or that has a rule already. -/
theorem effect_openNew {lhs : SymbolId} (t : Token) {s : State}
    (hlhs : lhs < s.grammar.table.size ∨ ∃ r ∈ s.grammar.rules, r.lhs = lhs) :
    Effect t s (openNew lhs t.line s) :=
  (Effect.edit t (Edit.addRule _ t.line hlhs).edits).trans (.of_eq rfl rfl rfl rfl)

/-- The check for empty alternatives looks at the grammar only. -/
theorem grammar_checkEmpty (id : RuleId) (lhs : SymbolId) (line : Nat) (s : State) :
    (checkEmpty id lhs line s).grammar = s.grammar := by
  unfold checkEmpty
  dsimp only
  split <;> rfl

/-- A bar may flag the left-hand side, and opens a rule of the same one. -/
theorem effect_newAlternative (id : RuleId) (t : Token) (s : State) :
    Effect t s (newAlternative id t.line s) := by
  unfold newAlternative
  cases hrule : s.grammar.rule? id with
  | none => exact .refl t s
  | some rule =>
    have hlhs : ∃ r ∈ s.grammar.rules, r.lhs = rule.lhs := ⟨rule, List.mem_of_getElem? hrule, rfl⟩
    dsimp only
    split
    · -- an empty alternative flags its left-hand side, and is itself kept unless it is blank
      have hflagged : Effect t s ((checkEmpty id rule.lhs t.line s).modifyGrammar
          (·.modifyTable (·.modify rule.lhs fun x => { x with nullable := true }))) :=
        (effect_checkEmpty id rule.lhs t s).trans
          (.modifySymbol t _ _ (fun _ => rfl) fun _ => rfl)
      split
      · exact hflagged
      · refine hflagged.trans (effect_openNew t (.inr ?_))
        simpa [State.modifyGrammar, Grammar.modifyTable, grammar_checkEmpty] using hlhs
    · exact effect_openNew t (.inr hlhs)

theorem effect_attachCode (id : RuleId) (t : Token) (s : State) :
    Effect t s (attachCode id t s) := by
  unfold attachCode
  split
  · exact .refl t s
  · split
    · exact .report t s rfl
    · exact .modifyRule t s id (fun _ => rfl) fun _ => rfl

theorem effect_endRule (id : RuleId) (t : Token) (s : State) :
    Effect t s (endRule id t.line s) := by
  have hclosed : Effect t s { s with openRule := none } := .of_eq rfl rfl rfl rfl
  unfold endRule
  dsimp only
  refine Effect.goto ?_ .ruleHead
  split
  · split
    · exact hclosed.trans (effect_checkEmpty _ _ t _)
    · exact hclosed
  · exact hclosed

theorem effect_appendSymbol (id : RuleId) (name : String) (t : Token) (s : State) :
    Effect t s (appendSymbol id name s) :=
  .edit t ((Edit.intern _ _).edits.tail (.rule _ _ (fun _ => rfl) fun _ => rfl))

/-! ## Tokens -/

/-- A reaction that changes nothing but symbols, rules and diagnostics stays where it is. -/
theorem phase_mem_of_setting {s s' : State} {phases : List Phase}
    (hsetting : s'.setting = s.setting) (h : s.phase ∈ phases) : s'.phase ∈ phases := by
  rw [phase_eq_of_setting hsetting]
  exact h

theorem phase_reactDeclaredNames_mem (t : Token) {s : State} (hs : s.phase = .declaredNames) :
    (reactDeclaredNames t s).state.phase ∈ Phase.next .declaredNames := by
  have hself : s.phase ∈ Phase.next .declaredNames := by simp [hs, Phase.next]
  simp only [reactDeclaredNames, Reaction.state]
  split
  · simp [Phase.next]
  split
  · exact hself
  split
  · exact hself
  · exact phase_mem_of_setting (setting_declare _ t s) hself

theorem phase_reactRuleBody_mem (t : Token) {s : State} (hs : s.phase = .ruleBody) :
    (reactRuleBody t s).state.phase ∈ Phase.next .ruleBody := by
  -- most tokens stay in the body
  have hself : s.phase ∈ Phase.next .ruleBody := by simp [hs, Phase.next]
  simp only [reactRuleBody, Reaction.state]
  split
  · split
    · simp [Phase.next, State.goto]
    · exact hself
  split
  · exact phase_mem_of_setting (setting_newAlternative _ t.line s) hself
  split
  · exact phase_mem_of_setting (setting_attachCode _ t s) hself
  split
  · simp [Phase.next, State.goto]
  split
  · simp [Phase.next, endRule, State.goto]
  split
  · exact hself
  · exact hself

theorem phase_reactAfterPrec_mem (t : Token) {s : State} (hs : s.phase = .afterPrec) :
    (reactAfterPrec t s).state.phase ∈ Phase.next .afterPrec := by
  have hself : s.phase ∈ Phase.next .afterPrec := by simp [hs, Phase.next]
  simp only [reactAfterPrec, Reaction.state]
  split
  · simp [Phase.next, State.goto]
  split
  · exact phase_mem_of_setting (setting_attachCode _ t s) hself
  split
  · simp [Phase.next, State.goto]
  split
  · simp [Phase.next, endRule, State.goto]
  · exact hself

/-- A reaction leads to one of the phases that follow. -/
theorem phase_react_mem (t : Token) (s : State) :
    (react t s).state.phase ∈ s.phase.next := by
  unfold react
  cases hs : s.phase with
  | preamble =>
    simp only [reactPreamble, Reaction.state]
    split <;> simp [Phase.next, State.goto, State.report, hs]
  | importBlock =>
    simp only [reactImportBlock]
    split <;> simp [Phase.next, Reaction.state, State.goto, State.report, hs]
  | declaration =>
    simp only [reactDeclaration, Reaction.state]
    split <;> simp [Phase.next, State.goto, State.report, hs]
  | keyword =>
    simp only [reactKeyword]
    split
    · simp [Phase.next, Reaction.state, State.goto]
    · simp only [Reaction.state]
      split <;> simp [Phase.next, State.report]
  | tagOrBlock =>
    -- a block, a tag, or the first name, which is read again
    simp only [reactTagOrBlock, readUnion]
    split
    · split <;> simp [Phase.next, Reaction.state]
    · split <;> simp [Phase.next, Reaction.state, State.goto]
  | declaredNames => exact phase_reactDeclaredNames_mem t hs
  | ruleHead =>
    simp only [reactRuleHead, Reaction.state]
    split
    · split <;> simp [Phase.next, State.goto, State.report, hs]
    · split <;> simp [Phase.next, State.goto]
  | colon =>
    simp only [reactColon]
    split <;> simp [Phase.next, Reaction.state, State.goto]
  | ruleBody => exact phase_reactRuleBody_mem t hs
  | precKeyword =>
    simp only [reactPrecKeyword, Reaction.state]
    split <;> simp [Phase.next, State.goto]
  | precSymbol =>
    simp only [reactPrecSymbol, Reaction.state]
    split <;> simp [Phase.next, State.goto, State.report, State.modifyGrammar]
  | afterPrec => exact phase_reactAfterPrec_mem t hs
  | trailerMark =>
    simp only [reactTrailerMark, Reaction.state]
    split <;> simp [Phase.next, State.goto, State.report, hs]
  | trailer => simp [reactTrailer, Reaction.state, Phase.next, State.modifyGrammar, hs]

theorem effect_reactKeyword (t : Token) (s : State) :
    Effect t s (reactKeyword t s).state := by
  have hskip : Effect t s { s with tag := none, keyword := none, phase := .declaredNames } :=
    .of_eq rfl rfl rfl rfl
  simp only [reactKeyword]
  split
  · exact (Effect.refl t s).goto _
  · simp only [Reaction.state]
    split
    · exact hskip.trans (.report t _ rfl)
    · exact hskip.trans (.of_eq rfl rfl rfl rfl)
    · exact hskip.trans (.report t _ rfl)

theorem effect_reactDeclaredNames (t : Token) (s : State) :
    Effect t s (reactDeclaredNames t s).state := by
  simp only [reactDeclaredNames, Reaction.state]
  split
  · exact .of_eq rfl rfl rfl rfl
  split
  · exact .refl t s
  split
  · exact .report t s rfl
  · exact effect_declare _ t s

theorem effect_reactRuleHead (t : Token) (s : State) :
    Effect t s (reactRuleHead t s).state := by
  simp only [reactRuleHead, Reaction.state]
  split
  · split
    · exact .report t s rfl
    · exact (Effect.refl t s).goto _
  split
  · refine Effect.goto ?_ .colon
    -- the left-hand side is a symbol by now, so it may have a rule
    have hinterned : Effect t s { s with grammar := (s.grammar.intern t.text).2 } :=
      .edit t (Edit.intern s.grammar t.text).edits
    exact hinterned.trans (effect_openNew t (.inl (SymbolTable.insert_fst_lt_size _ _)))
  · exact (Effect.report t s rfl).trans (.of_eq rfl rfl rfl rfl)

theorem effect_reactRuleBody (t : Token) (s : State) :
    Effect t s (reactRuleBody t s).state := by
  simp only [reactRuleBody, Reaction.state]
  split
  · split
    · exact (Effect.refl t s).goto _
    · exact .refl t s
  split
  · exact effect_newAlternative _ t s
  split
  · exact effect_attachCode _ t s
  split
  · exact (Effect.refl t s).goto _
  split
  · exact effect_endRule _ t s
  split
  · exact effect_appendSymbol _ _ t s
  · exact .report t s rfl

theorem effect_reactPrecSymbol (t : Token) (s : State) :
    Effect t s (reactPrecSymbol t s).state := by
  have hmoved : Effect t s (s.goto .afterPrec) := (Effect.refl t s).goto _
  simp only [reactPrecSymbol, Reaction.state]
  split
  · exact hmoved.trans (.modifyRule t _ _ (fun _ => rfl) fun _ => rfl)
  · exact hmoved.trans (.report t _ rfl)

theorem effect_reactAfterPrec (t : Token) (s : State) :
    Effect t s (reactAfterPrec t s).state := by
  simp only [reactAfterPrec, Reaction.state]
  split
  · exact (Effect.refl t s).goto _
  split
  · exact effect_attachCode _ t s
  split
  · exact (effect_newAlternative _ t s).goto _
  split
  · exact effect_endRule _ t s
  · exact .report t s rfl

/-- All that a reaction can do to a state. -/
theorem effect_react (t : Token) (s : State) : Effect t s (react t s).state := by
  unfold react
  cases s.phase with
  | preamble =>
    simp only [reactPreamble, Reaction.state]
    split
    · exact (Effect.refl t s).goto _
    · exact .report t s rfl
  | importBlock =>
    simp only [reactImportBlock]
    split
    · exact (Effect.edit t (Edit.codes s.grammar _ _ _).edits).goto _
    · exact (Effect.report t s rfl).goto _
  | declaration =>
    simp only [reactDeclaration, Reaction.state]
    split
    · exact (Effect.refl t s).goto _
    · exact .report t s rfl
  | keyword => exact effect_reactKeyword t s
  | tagOrBlock =>
    simp only [reactTagOrBlock]
    split
    · exact effect_readUnion t s
    split
    · exact .of_eq rfl rfl rfl rfl
    · exact (Effect.refl t s).goto _
  | declaredNames => exact effect_reactDeclaredNames t s
  | ruleHead => exact effect_reactRuleHead t s
  | colon =>
    simp only [reactColon]
    split
    · exact (Effect.refl t s).goto _
    · exact (Effect.report t s rfl).goto _
  | ruleBody => exact effect_reactRuleBody t s
  | precKeyword =>
    simp only [reactPrecKeyword, Reaction.state]
    split
    · exact (Effect.refl t s).goto _
    · exact (Effect.report t s rfl).goto _
  | precSymbol => exact effect_reactPrecSymbol t s
  | afterPrec => exact effect_reactAfterPrec t s
  | trailerMark =>
    simp only [reactTrailerMark, Reaction.state]
    split
    · exact (Effect.refl t s).goto _
    · exact .report t s rfl
  | trailer => exact .edit t (Edit.codes s.grammar _ _ _).edits

/-- Reading a token does what a reaction does, also if the token is read twice. -/
theorem effect_consume (t : Token) (s : State) : Effect t s (consume t s) := by
  have hfirst := effect_react t s
  unfold consume
  cases h : react t s with
  | done s' =>
    rw [h] at hfirst
    exact hfirst
  | again s' =>
    rw [h] at hfirst
    exact hfirst.trans (effect_react t s')

/-! ## Lists of tokens -/

/-- What every reaction keeps is kept by reading a token, be it once or twice. -/
theorem consume_induction {P : State → Prop} (hreact : ∀ t s, P s → P (react t s).state)
    (t : Token) {s : State} (hs : P s) : P (consume t s) := by
  have hfirst := hreact t s hs
  unfold consume
  cases h : react t s with
  | done s' =>
    rw [h] at hfirst
    exact hfirst
  | again s' =>
    rw [h] at hfirst
    exact hreact t s' hfirst

/-- What every reaction keeps is kept by reading. -/
theorem consumeAll_induction {P : State → Prop} (hreact : ∀ t s, P s → P (react t s).state)
    (ts : List Token) {s : State} (hs : P s) : P (consumeAll ts s) := by
  induction ts generalizing s with
  | nil => exact hs
  | cons t ts ih => exact ih (consume_induction hreact t hs)

/-- The name of the file stays. -/
theorem file_consumeAll (ts : List Token) (s : State) : (consumeAll ts s).file = s.file :=
  consumeAll_induction (P := fun s' => s'.file = s.file)
    (fun t s' hs' => (effect_react t s').file.trans hs') ts rfl

/-- Whatever the tokens are, the grammar is edited, and nothing that is reported stops the reading.
-/
theorem effect_consumeAll (ts : List Token) (s : State) :
    Edits s.grammar (consumeAll ts s).grammar ∧
      ∀ d ∈ (consumeAll ts s).errors, d ∈ s.errors ∨ d.isFatal = false := by
  let P (s' : State) : Prop :=
    Edits s.grammar s'.grammar ∧ ∀ d ∈ s'.errors, d ∈ s.errors ∨ d.isFatal = false
  have hreact (t : Token) (s' : State) (hs' : P s') : P (react t s').state := by
    obtain ⟨hedits, herrors⟩ := hs'
    have heffect := effect_react t s'
    obtain ⟨problems, hreported, hfatal⟩ := heffect.errors
    refine ⟨hedits.trans heffect.grammar, fun d hd => ?_⟩
    rw [hreported, List.mem_append, List.mem_map] at hd
    -- a diagnostic was there before, or this reaction has reported it
    rcases hd with hbefore | ⟨p, hp, rfl⟩
    · exact herrors d hbefore
    · exact .inr (hfatal p hp)
  exact consumeAll_induction hreact ts ⟨.refl, fun d hd => .inl hd⟩

end Reading

end YaccGrammar
