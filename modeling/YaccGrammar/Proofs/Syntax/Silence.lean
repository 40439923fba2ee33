import YaccGrammar.Proofs.Syntax.Step

/-!
# Reading without diagnostics

A token that makes no step leaves a diagnostic. Phase by phase: whatever is not in place is
reported there, also where the token is read again and accepted in the next phase.

## Main statements

- `Stands.exists_step`: a token that leaves no diagnostic makes a step.
- `Stands.exists_steps`: a list of tokens that leaves no diagnostic has steps.
-/

namespace YaccGrammar.Reading

variable {w : Record} {phase : Phase} {s s' : State} {t : Token}

/-! ## Diagnostics -/

/-- What is reported is there. -/
theorem errors_report_ne_nil (s : State) (line : Nat) (problem : Problem) :
    (s.report line problem).errors ≠ [] :=
  List.concat_ne_nil _ _

/-- Diagnostics are not taken back. -/
theorem errors_eq_nil_of_consumeAll (ts : List Token) (h : (consumeAll ts s).errors = []) :
    s.errors = [] :=
  List.prefix_nil.mp (h ▸ errors_consumeAll ts s)

/-- A diagnostic stays when the token is read again. -/
theorem errors_of_again (hreact : react t s = .again s') (h : (consume t s).errors = []) :
    s'.errors = [] := by
  rw [consume_of_again hreact] at h
  exact errors_eq_nil_of_consumeAll [t] h

/-! ## Declarations -/

/-- A keyword reports the names that it does not accept, and `%start` a second name. -/
theorem accepts_of_declare {k : Keyword} (hprec : k ≠ .prec) (hunion : k ≠ .union)
    (h : (declare k t s).errors = []) :
    accepts k t.text = true ∧ (k = .start → s.grammar.declaredStart = none) := by
  unfold declare at h
  dsimp only at h
  cases k with
  | prec => contradiction
  | union => contradiction
  | type | token | left | right | nonassoc =>
    refine ⟨?_, nofun⟩
    dsimp only at h
    split at h
    · next haccepts => exact haccepts
    · exact absurd h (errors_report_ne_nil _ _ _)
  | start =>
    dsimp only at h
    split at h
    · exact absurd h (errors_report_ne_nil _ _ _)
    · next haccepts =>
      refine ⟨by simpa [accepts] using haccepts, fun _ => ?_⟩
      -- the tag of the declaration does not change the start symbol
      split at h
      · split at h
        · exact absurd h (errors_report_ne_nil _ _ _)
        · next hstart => exact Option.not_isSome_iff_eq_none.mp hstart
      · split at h
        · exact absurd h (errors_report_ne_nil _ _ _)
        · next hstart => exact Option.not_isSome_iff_eq_none.mp hstart

/-- No start symbol was declared before, or it would have a number. -/
theorem Stands.start?_eq_none (hs : Stands w phase s) (h : s.grammar.declaredStart = none) :
    DeclEntry.start? w.entries = none := by
  obtain ⟨h', hh, rfl⟩ := hs.agrees
  have hnone := isNone_eq_of_rel hh.declaredStart
  rw [h] at hnone
  exact Option.isNone_iff_eq_none.mp hnone.symm

/-! ## Ends of alternatives -/

/-- An empty alternative in front of a bar flags its left-hand side. -/
theorem isNullable_of_closed {h : History} (hh : Agrees h s) {c : Closed} (hc : c ∈ h.closed)
    (hbar : c.byBar = true) (hempty : c.alternative.symbols = []) {id : SymbolId}
    (hid : Numbers h.names id c.alternative.lhs) : s.grammar.table.isNullable id = true := by
  rw [← hh.names, Numbers, SymbolTable.names_getElem?] at hid
  obtain ⟨x, hx, hname⟩ := Option.map_eq_some_iff.mp hid
  have hflag : x.nullable = true :=
    (hh.nullable_iff (List.mem_of_getElem? hx)).mpr ⟨c, hc, hbar, hempty, hname.symm⟩
  exact (Option.any_eq_true _ _).mpr ⟨x, hx, hflag⟩

/-- An empty alternative in front of a semicolon leaves an empty rule. -/
theorem exists_empty_of_closed {h : History} {rules : List Rule}
    (hkept : List.Forall₂ (Matches h.names) rules h.kept) {c : Closed} (hc : c ∈ h.closed)
    (hbar : c.byBar = false) (hempty : c.alternative.symbols = []) {id : SymbolId}
    (hid : Numbers h.names id c.alternative.lhs) :
    ∃ rule ∈ rules, rule.lhs = id ∧ rule.rhs.isEmpty = true := by
  have hmem : c.alternative ∈ h.kept :=
    List.mem_map_of_mem (List.mem_filter.mpr ⟨hc, by simp [Closed.isKept, hbar]⟩)
  obtain ⟨rule, hrule, hmatches⟩ := exists_of_mem_left hkept.flip hmem
  refine ⟨rule, hrule, eq_of_numbers hmatches.lhs hid, ?_⟩
  rw [hmatches.isEmpty_rhs, hempty]
  rfl

/-- A repeated empty alternative is reported, whichever mark closed the one before it. -/
theorem fresh_of_checkEmpty {h : History} {a : Alternative} {id : RuleId} {r : Rule} {line : Nat}
    (hh : Agrees h s) (hcurrent : h.current = some a) (hopen : s.openRule = some id)
    (hrule : s.grammar.rule? id = some r) (hgrammar : s'.grammar = s.grammar)
    (herrors : (checkEmpty id r.lhs line s').errors = []) : h.record.Fresh a.lhs := by
  intro c' hc' hlhs hempty
  obtain ⟨c, hc, rfl⟩ := List.mem_map.mp hc'
  obtain ⟨rules, r', hrules, hopen', hkept, hr⟩ := hh.exists_openRule hcurrent
  have hid : id = rules.length := Option.some_inj.mp (hopen.symm.trans hopen')
  have hrr' : r = r' := by
    rw [Grammar.rule?, hrules, hid, List.getElem?_concat_length] at hrule
    exact (Option.some_inj.mp hrule).symm
  subst hrr'
  -- both alternatives have the same left-hand side, hence the same number
  have hnumber : Numbers h.names r.lhs c.alternative.lhs := by
    have hlhs' : c.alternative.lhs = a.lhs := hlhs
    rw [hlhs']
    exact hr.lhs
  unfold checkEmpty at herrors
  rw [hgrammar] at herrors
  dsimp only at herrors
  split at herrors
  · exact errors_report_ne_nil _ _ _ herrors
  · next hcheck =>
    rw [Bool.or_eq_true, not_or, Bool.not_eq_true, Bool.not_eq_true, List.any_eq_false] at hcheck
    -- a bar has left a flag, a semicolon a rule; the check looks at both
    cases hbar : c.byBar with
    | true =>
      rw [isNullable_of_closed hh hc hbar hempty hnumber] at hcheck
      exact absurd hcheck.1 (by decide)
    | false =>
      -- the rule of the other alternative stands in front of the open one
      obtain ⟨rule, hmem, hsame, hnil⟩ := exists_empty_of_closed hkept hc hbar hempty hnumber
      obtain ⟨i, hi, hget⟩ := List.getElem_of_mem hmem
      have hindex : (rule, i) ∈ s.grammar.rules.zipIdx := by
        rw [List.mem_zipIdx_iff_getElem?, hrules, List.getElem?_append_left hi, ← hget,
          List.getElem?_eq_getElem hi]
      apply hcheck.2 (rule, i) hindex
      have hne : i ≠ id := by
        rw [hid]
        exact Nat.ne_of_lt hi
      simp [hsame, hne, hnil]

namespace Stands

variable {a : Alternative} {id : RuleId} {line : Nat}

/-- Inside an alternative a rule is open. -/
theorem exists_openRule_eq (hs : Stands w phase s) (ha : w.current = some a) :
    ∃ id, s.openRule = some id := by
  obtain ⟨h, id, r, -, -, -, hopen, -⟩ := hs.exists_rule ha
  exact ⟨id, hopen⟩

/-- A code block that is not reported is the first one. -/
theorem code_of_attachCode (hs : Stands w phase s) (ha : w.current = some a)
    (hopen : s.openRule = some id) (h : (attachCode id t s).errors = []) : a.code = none := by
  obtain ⟨h', id', r, -, -, -, hopen', hrule, hr⟩ := hs.exists_rule ha
  obtain rfl : id = id' := Option.some_inj.mp (hopen.symm.trans hopen')
  simp only [attachCode, hrule] at h
  split at h
  · exact absurd h (errors_report_ne_nil _ _ _)
  · next hnone =>
    rw [← hr.code, Option.map_eq_none_iff]
    simpa using hnone

/-- An empty alternative that a bar closes without a report is the first one. -/
theorem fresh_of_newAlternative (hs : Stands w phase s) (ha : w.current = some a)
    (hopen : s.openRule = some id) (h : (newAlternative id line s).errors = [])
    (hempty : a.symbols = []) : w.Fresh a.lhs := by
  obtain ⟨h', id', r, hh, rfl, ha', hopen', hrule, hr⟩ := hs.exists_rule ha
  obtain rfl : id = id' := Option.some_inj.mp (hopen.symm.trans hopen')
  have hrhs : r.rhs.isEmpty = true := by
    rw [hr.isEmpty_rhs, hempty]
    rfl
  simp only [newAlternative, hrule, hrhs, if_true] at h
  -- what happens behind the check leaves the diagnostics alone
  have hcheck : (checkEmpty id r.lhs line s).errors = [] := by
    split at h
    · exact h
    · exact h
  exact fresh_of_checkEmpty hh ha' hopen hrule rfl hcheck

/-- An empty alternative that a semicolon closes without a report is the first one. -/
theorem fresh_of_endRule (hs : Stands w phase s) (ha : w.current = some a)
    (hopen : s.openRule = some id) (h : (endRule id line s).errors = [])
    (hempty : a.symbols = []) : w.Fresh a.lhs := by
  obtain ⟨h', id', r, hh, rfl, ha', hopen', hrule, hr⟩ := hs.exists_rule ha
  obtain rfl : id = id' := Option.some_inj.mp (hopen.symm.trans hopen')
  have hrhs : r.rhs.isEmpty = true := by
    rw [hr.isEmpty_rhs, hempty]
    rfl
  simp only [endRule, hrule, hrhs, if_true] at h
  have hgrammar : { s with openRule := none }.grammar = s.grammar := rfl
  exact fresh_of_checkEmpty hh ha' hopen hrule hgrammar h

/-! ## Tokens -/

/-- Among declared names, a token that is not reported is in place. -/
theorem exists_step_of_declaredNames (hs : Stands w .declaredNames s) (hw : w.Fits .declaredNames)
    (h : (consume t s).errors = []) : ∃ w' phase', Step w .declaredNames t w' phase' := by
  obtain ⟨k, tag, hline, hprec, hunion⟩ := hw.line rfl
  have hkeyword := hs.keyword_eq hline
  simp only [consume, react, hs.phase, reactDeclaredNames, hkeyword] at h
  split at h
  · next hmark => exact ⟨_, _, .namesMark (Token.is_percent_iff.mp hmark)⟩
  next hmark =>
  split at h
  · exact absurd h (errors_report_ne_nil _ _ _)
  next hfirst =>
  obtain ⟨haccepts, hstart⟩ := accepts_of_declare hprec hunion h
  exact ⟨_, _, .name hline ⟨mt Token.is_percent_iff.mpr hmark, hfirst, haccepts⟩
    fun hk => hs.start?_eq_none (hstart hk)⟩

/-- Behind a keyword, a token that is not reported is in place. -/
theorem exists_step_of_tagOrBlock (hs : Stands w .tagOrBlock s) (hw : w.Fits .tagOrBlock)
    (h : (consume t s).errors = []) : ∃ w' phase', Step w .tagOrBlock t w' phase' := by
  obtain ⟨k, hline, -⟩ := hw.keyword rfl
  have hkeyword := hs.keyword_eq hline
  by_cases hk : k = .union
  · subst hk
    cases hblock : t.isBlock with
    | false =>
      -- the token is read again, but what is missing has been reported
      have hreact : react t s = .again { s.report t.line (.missingUnionBlock t.text) with
          keyword := none, phase := .declaredNames } := by
        simp [react, hs.phase, reactTagOrBlock, hkeyword, readUnion, hblock]
      exact absurd (errors_of_again hreact h) (errors_report_ne_nil _ _ _)
    | true =>
      cases hunion : s.grammar.unionCode with
      | none =>
        have hnone : w.unionCode = none := by
          rw [← hs.unionCode_eq, hunion]
          rfl
        exact ⟨_, _, .unionBlock hline hnone hblock⟩
      | some first =>
        simp only [consume, react, hs.phase, reactTagOrBlock, hkeyword, readUnion, hblock, hunion,
          if_true] at h
        -- a second block is reported
        exact absurd h (errors_report_ne_nil _ _ _)
  · by_cases hfirst : t.first = '<'
    · exact ⟨_, _, .tag hline hk hfirst⟩
    · obtain ⟨hnames, hconsume⟩ := hs.consume_tagOrBlock hk hline hfirst
      rw [hconsume] at h
      obtain ⟨w', phase', hstep⟩ :=
        exists_step_of_declaredNames hnames (hw.untagged hline hk) h
      exact ⟨w', phase', .untagged hline hk hfirst hstep⟩

/-- In the body of a rule, a token that is not reported is in place. -/
theorem exists_step_of_ruleBody (hs : Stands w .ruleBody s) (hw : w.Fits .ruleBody)
    (h : (consume t s).errors = []) : ∃ w' phase', Step w .ruleBody t w' phase' := by
  obtain ⟨a, ha⟩ := hw.current rfl
  obtain ⟨id, hopen⟩ := hs.exists_openRule_eq ha
  simp only [consume, react, hs.phase, reactRuleBody, hopen] at h
  split at h
  · next hbar =>
    have hfresh := hs.fresh_of_newAlternative ha hopen h
    exact ⟨_, _, .bar (Or.inl rfl) ha hfresh (Token.text_eq_of_is hbar)⟩
  split at h
  · next hfirst => exact ⟨_, _, .code (Or.inl rfl) ha (hs.code_of_attachCode ha hopen h) hfirst⟩
  split at h
  · next hmark => exact ⟨_, _, .precMark ha (Token.is_percent_iff.mp hmark)⟩
  split at h
  · next hsemicolon =>
    have hfresh := hs.fresh_of_endRule ha hopen h
    exact ⟨_, _, .semicolon (Or.inl rfl) ha hfresh (Token.text_eq_of_is hsemicolon)⟩
  split at h
  · next hsymbol => exact ⟨_, _, .symbol ha hsymbol⟩
  · exact absurd h (errors_report_ne_nil _ _ _)

/-- Behind a precedence, a token that is not reported is in place. -/
theorem exists_step_of_afterPrec (hs : Stands w .afterPrec s) (hw : w.Fits .afterPrec)
    (h : (consume t s).errors = []) : ∃ w' phase', Step w .afterPrec t w' phase' := by
  obtain ⟨a, ha⟩ := hw.current rfl
  obtain ⟨id, hopen⟩ := hs.exists_openRule_eq ha
  simp only [consume, react, hs.phase, reactAfterPrec, hopen] at h
  split at h
  · next hfirst => exact ⟨_, _, .code (Or.inr rfl) ha (hs.code_of_attachCode ha hopen h) hfirst⟩
  split at h
  · next hbar =>
    have hfresh := hs.fresh_of_newAlternative ha hopen h
    exact ⟨_, _, .bar (Or.inr rfl) ha hfresh (Token.text_eq_of_is hbar)⟩
  split at h
  · next hsemicolon =>
    have hfresh := hs.fresh_of_endRule ha hopen h
    exact ⟨_, _, .semicolon (Or.inr rfl) ha hfresh (Token.text_eq_of_is hsemicolon)⟩
  · exact absurd h (errors_report_ne_nil _ _ _)

/-- Behind `%prec`, a symbol that is not reported is known. -/
theorem exists_step_of_precSymbol (hs : Stands w .precSymbol s) (hw : w.Fits .precSymbol)
    (h : (consume t s).errors = []) : ∃ w' phase', Step w .precSymbol t w' phase' := by
  obtain ⟨a, ha⟩ := hw.current rfl
  simp only [consume, react, hs.phase, reactPrecSymbol] at h
  split at h
  · next symbol id hfind hopen =>
    -- what is in the table was mentioned
    have hfind' : s.grammar.table.find? t.text = some symbol := hfind
    have hmem : t.text ∈ s.grammar.table.names :=
      SymbolTable.find?_isSome_iff.mp (by rw [hfind']; rfl)
    obtain ⟨h', hh, rfl⟩ := hs.agrees
    rw [hh.names, History.mem_names] at hmem
    exact ⟨_, _, .precSymbol ha hmem⟩
  · exact absurd h (errors_report_ne_nil _ _ _)

/-- A token that leaves no diagnostic makes a step. -/
theorem exists_step (hs : Stands w phase s) (hw : w.Fits phase) (h : (consume t s).errors = []) :
    ∃ w' phase', Step w phase t w' phase' := by
  cases phase with
  | preamble =>
    simp only [consume, react, hs.phase, reactPreamble] at h
    split at h
    · next hmark => exact ⟨_, _, .preambleMark (Token.is_percent_iff.mp hmark)⟩
    · exact absurd h (errors_report_ne_nil _ _ _)
  | importBlock =>
    cases hblock : t.isImportBlock with
    | true => exact ⟨_, _, .importBlock hblock⟩
    | false =>
      have hreact : react t s =
          .again ((s.report t.line (.missingImportBlock t.text)).goto .keyword) := by
        simp [react, hs.phase, reactImportBlock, hblock]
      exact absurd (errors_of_again hreact h) (errors_report_ne_nil _ _ _)
  | declaration =>
    simp only [consume, react, hs.phase, reactDeclaration] at h
    split at h
    · next hmark => exact ⟨_, _, .declarationMark (Token.is_percent_iff.mp hmark)⟩
    · exact absurd h (errors_report_ne_nil _ _ _)
  | keyword =>
    cases hmark : t.is '%' with
    | true => exact ⟨_, _, .rulesMark (Token.is_percent_iff.mp hmark)⟩
    | false =>
      simp only [consume, react, hs.phase, reactKeyword, hmark, Bool.false_eq_true, if_false] at h
      cases hword : Keyword.ofWord? t.text with
      | none =>
        rw [hword] at h
        exact absurd h (errors_report_ne_nil _ _ _)
      | some k =>
        by_cases hprec : k = .prec
        · rw [hword, hprec] at h
          exact absurd h (errors_report_ne_nil _ _ _)
        · exact ⟨_, _, .keyword hword hprec⟩
  | tagOrBlock => exact exists_step_of_tagOrBlock hs hw h
  | declaredNames => exact exists_step_of_declaredNames hs hw h
  | ruleHead =>
    simp only [consume, react, hs.phase, reactRuleHead] at h
    split at h
    · next hmark =>
      split at h
      · exact absurd h (errors_report_ne_nil _ _ _)
      · next hrules =>
        -- a file with rules has kept an alternative
        have hkept : w.kept ≠ [] := by
          intro hnil
          exact hrules (List.isEmpty_iff.mpr ((hs.rules_eq_nil_iff rfl).mpr hnil))
        exact ⟨_, _, .trailerMark hkept (Token.is_percent_iff.mp hmark)⟩
    split at h
    · next hname => exact ⟨_, _, .head hname⟩
    · exact absurd h (errors_report_ne_nil _ _ _)
  -- without a colon the token is read again, but that was reported
  | colon =>
    cases hcolon : t.is ':' with
    | true => exact ⟨_, _, .colon (Token.text_eq_of_is hcolon)⟩
    | false =>
      have hreact : react t s =
          .again ((s.report t.line (.missingColon t.text)).goto .ruleBody) := by
        simp [react, hs.phase, reactColon, hcolon]
      exact absurd (errors_of_again hreact h) (errors_report_ne_nil _ _ _)
  | ruleBody => exact exists_step_of_ruleBody hs hw h
  | precKeyword =>
    simp only [consume, react, hs.phase, reactPrecKeyword] at h
    split at h
    · next hword => exact ⟨_, _, .precKeyword hword⟩
    · exact absurd h (errors_report_ne_nil _ _ _)
  | precSymbol => exact exists_step_of_precSymbol hs hw h
  | afterPrec => exact exists_step_of_afterPrec hs hw h
  | trailerMark =>
    simp only [consume, react, hs.phase, reactTrailerMark] at h
    split at h
    · next hmark => exact ⟨_, _, .trailer (Token.is_percent_iff.mp hmark)⟩
    · exact absurd h (errors_report_ne_nil _ _ _)
  | trailer => exact ⟨_, _, .trailing⟩

end Stands

/-- What is read without a diagnostic has steps. -/
theorem Stands.exists_steps {ts : List Token} (hs : Stands w phase s) (hw : w.Fits phase)
    (h : (consumeAll ts s).errors = []) : ∃ w' phase', Steps w phase ts w' phase' := by
  induction ts generalizing w phase s with
  | nil => exact ⟨w, phase, .nil⟩
  | cons t ts ih =>
    -- no diagnostic at the end means none behind the first token
    obtain ⟨w', phase', hstep⟩ := hs.exists_step hw (errors_eq_nil_of_consumeAll ts h)
    obtain ⟨w'', phase'', hsteps⟩ := ih (hs.of_step hstep) (hstep.fits hw) h
    exact ⟨w'', phase'', .cons hstep hsteps⟩

end YaccGrammar.Reading
