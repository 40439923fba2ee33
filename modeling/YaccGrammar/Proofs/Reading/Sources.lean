import YaccGrammar.Proofs.Reading.Effect

/-!
# Where rules and codes come from

Among all that a grammar holds, rules and codes know a line. A token writes at most one of them: it
opens a rule, is the code of a rule, the imported code or the code of a union, and each time it is
its own line that is written. So every rule and every code of a grammar comes from a token that has
been read, and the rules come from their tokens in order.

## Main statements

- `writes_consume`: what a token may write.
- `sources_consumeAll`: the tokens that rules and codes come from.
-/

namespace YaccGrammar

/-! ## Names -/

open SymbolTable

/-- The link to the last rule is no part of a name. -/
theorem names_addRule (g : Grammar) (lhs : SymbolId) (line : Nat) :
    (g.addRule lhs line).2.table.names = g.table.names :=
  names_modify (f := fun x => { x with firstRule := some g.rules.length }) (fun _ => rfl) _ _

/-- An edit keeps all names and may add one. -/
theorem names_prefix_of_edit {g g' : Grammar} (h : Edit g g') :
    g.table.names <+: g'.table.names := by
  have hkept {names : List String} (hnames : names = g.table.names) : g.table.names <+: names :=
    hnames ▸ List.prefix_refl _
  cases h with
  | codes | start | rule => exact hkept rfl
  -- the only edit that may add a name; a known one is not added again
  | intern n =>
    simp only [Grammar.intern, names_insert]
    split
    · exact List.prefix_refl _
    · exact List.prefix_append _ _
  | symbol id hname => exact hkept (names_modify hname _ _)
  | kind id kind => exact hkept (names_setKind _ _ _)
  | addRule line => exact hkept (names_addRule g _ line)

/-- Symbols keep their numbers and their names. -/
theorem names_prefix_of_edits {g g' : Grammar} (h : Edits g g') :
    g.table.names <+: g'.table.names := by
  induction h with
  | refl => exact List.prefix_refl _
  | tail _ hedit ih => exact ih.trans (names_prefix_of_edit hedit)

/-- The rules and the codes in front of the rules. -/
def Grammar.written (g : Grammar) : List Rule × Option CodeBlock × Option CodeBlock :=
  (g.rules, g.importCode, g.unionCode)

/-- The codes in front of the rules and in the rules. -/
def Grammar.codes (g : Grammar) : List CodeBlock :=
  g.importCode.toList ++ g.unionCode.toList ++ g.rules.filterMap Rule.code

namespace Reading

/-! ## What a token writes -/

/-- A token opens a rule: it is the bar in front of it, or its left-hand side. -/
structure Opens (phase : Phase) (t : Token) (table : SymbolTable) (r : Rule) : Prop where
  line : r.line = t.line
  code : r.code = none
  lhs : t.is '|' = true ∨ phase = .ruleHead ∧ table.names[r.lhs]? = some t.text

/-- A token fills up a rule. If it changes the code, it is the first code. -/
structure Fills (t : Token) (r r' : Rule) : Prop where
  lhs : r'.lhs = r.lhs
  line : r'.line = r.line
  code : r'.code = r.code ∨ t.first = '{' ∧ r.code = none ∧ r'.code = some ⟨t.text, t.line⟩

/-- At most one rule or code is written. -/
inductive Writes (t : Token) (s : State) (g : Grammar) : Prop where
  | nothing (h : g.written = s.grammar.written)
  | importCode (hs : s.phase = .importBlock) (ht : t.isImportBlock = true)
      (h : g.written = (s.grammar.rules, some ⟨t.trimmed 1 2, t.line⟩, s.grammar.unionCode))
  | unionCode (hs : s.phase = .tagOrBlock ∧ s.keyword = some .union)
      (hnone : s.grammar.unionCode = none) (ht : t.isBlock = true)
      (h : g.written = (s.grammar.rules, s.grammar.importCode, some ⟨t.trimmed 1 1, t.line⟩))
  | rule {id : RuleId} (hopen : s.openRule = some id) {f : Rule → Rule}
      (hf : ∀ r, s.grammar.rule? id = some r → Fills t r (f r))
      (h : g.written = (s.grammar.rules.modify id f, s.grammar.importCode, s.grammar.unionCode))
  | newRule {r : Rule} (hr : Opens s.phase t g.table r)
      (h : g.written = (s.grammar.rules ++ [r], s.grammar.importCode, s.grammar.unionCode))

variable {t : Token} {s s' : State}

/-- A declared name writes neither a rule nor a code. -/
theorem written_declare (k : Keyword) (t : Token) (s : State) :
    (declare k t s).grammar.written = s.grammar.written := by
  unfold declare
  lift_lets
  intro id g
  have hg : g.written = s.grammar.written := by
    dsimp only [g]
    split <;> rfl
  clear_value g
  cases k with
  | prec | union => exact hg
  | type | token | left | right | nonassoc =>
    dsimp only
    split <;> exact hg
  | start =>
    dsimp only
    split
    · exact hg
    split <;> exact hg

/-- The first block of `%union` is written, and no other one. -/
theorem writes_readUnion (hs : s.phase = .tagOrBlock ∧ s.keyword = some .union) (t : Token) :
    Writes t s (readUnion t s).state.grammar := by
  unfold readUnion
  split
  · next ht =>
    simp only [Reaction.state]
    cases hunion : s.grammar.unionCode with
    | none => exact .unionCode hs hunion ht rfl
    | some first => exact .nothing rfl
  · exact .nothing rfl

/-- A bar opens a rule for the left-hand side of another one. -/
theorem writes_newAlternative (ht : t.is '|' = true) (id : RuleId) (s : State) :
    Writes t s (newAlternative id t.line s).grammar := by
  unfold newAlternative
  split
  · exact .nothing rfl
  next rule _ =>
  have hcheck := grammar_checkEmpty id rule.lhs t.line s
  dsimp only
  split
  · -- the check of the alternative and the flag of its left-hand side touch no rule
    split
    · exact .nothing (by simp [Grammar.written, State.modifyGrammar, Grammar.modifyTable, hcheck])
    · exact .newRule ⟨rfl, rfl, .inl ht⟩
        (by simp [Grammar.written, State.modifyGrammar, Grammar.modifyTable, openNew,
          Grammar.addRule, hcheck]; rfl)
  · exact .newRule ⟨rfl, rfl, .inl ht⟩ rfl

/-- The first block of a rule is written, and no other one. -/
theorem writes_attachCode (ht : t.first = '{') {id : RuleId} (hopen : s.openRule = some id) :
    Writes t s (attachCode id t s).grammar := by
  unfold attachCode
  split
  · exact .nothing rfl
  next rule hrule =>
  split
  · exact .nothing rfl
  · next hcode =>
    -- the rule had no code, which is what makes this block the first one
    refine .rule hopen (f := fun r => { r with code := some ⟨t.text, t.line⟩ }) ?_ rfl
    intro r hr
    rw [hrule, Option.some_inj] at hr
    subst hr
    exact ⟨rfl, rfl, .inr ⟨ht, by simpa using hcode, rfl⟩⟩

/-- The end of a rule writes nothing. -/
theorem writes_endRule (id : RuleId) (t : Token) (s : State) :
    Writes t s (endRule id t.line s).grammar := by
  unfold endRule
  dsimp only
  split
  · split
    · refine .nothing ?_
      simp only [State.goto, grammar_checkEmpty]
    · exact .nothing rfl
  · exact .nothing rfl

/-- A symbol fills up the open rule and leaves its code and its line alone. -/
theorem writes_appendSymbol {id : RuleId} (hopen : s.openRule = some id) (name : String)
    (t : Token) : Writes t s (appendSymbol id name s).grammar := by
  let symbol := (s.grammar.intern name).1
  refine .rule hopen (f := fun r => { r with rhs := r.rhs ++ [symbol] }) ?_ rfl
  exact fun _ _ => ⟨rfl, rfl, .inl rfl⟩

/-! ## Reactions -/

/-- Where a rule is awaited, a name opens one. -/
theorem writes_reactRuleHead (hs : s.phase = .ruleHead) (t : Token) :
    Writes t s (reactRuleHead t s).state.grammar := by
  simp only [reactRuleHead, Reaction.state]
  split
  · split <;> exact .nothing rfl
  split
  · -- the left-hand side is a symbol before its rule is opened
    refine .newRule ⟨rfl, rfl, .inr ⟨hs, ?_⟩⟩ rfl
    simp only [State.goto, openNew, names_addRule]
    exact names_insert_fst _ _
  · exact .nothing rfl

/-- In the body of a rule, a bar opens another rule, and code or a symbol fills up the open one. -/
theorem writes_reactRuleBody (t : Token) (s : State) :
    Writes t s (reactRuleBody t s).state.grammar := by
  simp only [reactRuleBody, Reaction.state]
  split
  · split <;> exact .nothing rfl
  next hopen =>
  split
  · next hbar => exact writes_newAlternative hbar _ s
  split
  · next hcode => exact writes_attachCode hcode hopen
  split
  · exact .nothing rfl
  split
  · exact writes_endRule _ t s
  split
  · exact writes_appendSymbol hopen _ t
  · exact .nothing rfl

/-- The symbol behind `%prec` fills up the open rule. -/
theorem writes_reactPrecSymbol (t : Token) (s : State) :
    Writes t s (reactPrecSymbol t s).state.grammar := by
  simp only [reactPrecSymbol, Reaction.state]
  split
  · next symbol id _ hopen =>
    refine .rule hopen (f := fun r => { r with precSymbol := some symbol }) ?_ rfl
    exact fun _ _ => ⟨rfl, rfl, .inl rfl⟩
  · exact .nothing rfl

/-- Behind a precedence, a bar opens another rule, and code fills up the open one. -/
theorem writes_reactAfterPrec (t : Token) (s : State) :
    Writes t s (reactAfterPrec t s).state.grammar := by
  simp only [reactAfterPrec, Reaction.state]
  split
  · exact .nothing rfl
  next hopen =>
  split
  · next hcode => exact writes_attachCode hcode hopen
  split
  · next hbar => exact writes_newAlternative hbar _ s
  split
  · exact writes_endRule _ t s
  · exact .nothing rfl

/-- A reaction writes at most one rule or code. -/
theorem writes_react (t : Token) (s : State) : Writes t s (react t s).state.grammar := by
  unfold react
  cases hs : s.phase with
  | preamble =>
    simp only [reactPreamble, Reaction.state]
    split <;> exact .nothing rfl
  | importBlock =>
    simp only [reactImportBlock]
    split
    · next ht => exact .importCode hs ht rfl
    · exact .nothing rfl
  | declaration =>
    simp only [reactDeclaration, Reaction.state]
    split <;> exact .nothing rfl
  | keyword =>
    simp only [reactKeyword]
    split
    · exact .nothing rfl
    · simp only [Reaction.state]
      split <;> exact .nothing rfl
  | tagOrBlock =>
    simp only [reactTagOrBlock]
    split
    · next hunion => exact writes_readUnion ⟨hs, hunion⟩ t
    split <;> exact .nothing rfl
  | declaredNames =>
    simp only [reactDeclaredNames, Reaction.state]
    split
    · exact .nothing rfl
    split
    · exact .nothing rfl
    split
    · exact .nothing rfl
    · exact .nothing (written_declare _ t s)
  | ruleHead => exact writes_reactRuleHead hs t
  | colon =>
    simp only [reactColon]
    split <;> exact .nothing rfl
  | ruleBody => exact writes_reactRuleBody t s
  | precKeyword =>
    simp only [reactPrecKeyword, Reaction.state]
    split <;> exact .nothing rfl
  | precSymbol => exact writes_reactPrecSymbol t s
  | afterPrec => exact writes_reactAfterPrec t s
  | trailerMark =>
    simp only [reactTrailerMark, Reaction.state]
    split <;> exact .nothing rfl
  | trailer => exact .nothing rfl

/-- A token that is to be read again has left the grammar and the open rule alone. -/
theorem grammar_of_again (h : react t s = .again s') :
    s'.grammar = s.grammar ∧ s'.openRule = s.openRule := by
  unfold react at h
  cases hs : s.phase with
  | importBlock =>
    simp only [hs, reactImportBlock] at h
    split at h
    · cases h
    · cases h
      exact ⟨rfl, rfl⟩
  | tagOrBlock =>
    simp only [hs, reactTagOrBlock, readUnion] at h
    split at h
    · split at h
      · cases h
      · cases h
        exact ⟨rfl, rfl⟩
    split at h
    · cases h
    · cases h
      exact ⟨rfl, rfl⟩
  | colon =>
    simp only [hs, reactColon] at h
    split at h
    · cases h
    · cases h
      exact ⟨rfl, rfl⟩
  | keyword =>
    simp only [hs, reactKeyword] at h
    split at h
    · cases h
    · cases h
  | _ =>
    rw [hs] at h
    cases h

/-- Reading a token writes at most one rule or code, also if the token is read twice. -/
theorem writes_consume (t : Token) (s : State) : Writes t s (consume t s).grammar := by
  cases h : react t s with
  | done s' =>
    have hwrites := writes_react t s
    simp only [consume, h] at hwrites ⊢
    exact hwrites
  | again s' =>
    obtain ⟨hgrammar, hsame⟩ := grammar_of_again h
    -- where a token is read again, neither a left-hand side nor a code in front of the rules is
    -- waited for
    have hphase : s'.phase ≠ .ruleHead ∧ s'.phase ≠ .importBlock ∧ s'.phase ≠ .tagOrBlock := by
      rcases phase_of_again h with hs' | hs' | hs' <;> simp [hs']
    have hwrites := writes_react t s'
    simp only [consume, h]
    cases hwrites with
    | nothing hg => exact .nothing (hgrammar ▸ hg)
    | importCode hs _ _ => exact absurd hs hphase.2.1
    | unionCode hs _ _ _ => exact absurd hs.1 hphase.2.2
    | rule hopen hf hg => exact .rule (hsame ▸ hopen) (hgrammar ▸ hf) (hgrammar ▸ hg)
    | newRule hr hg =>
      refine .newRule ⟨hr.line, hr.code, .inl ?_⟩ (hgrammar ▸ hg)
      exact hr.lhs.resolve_right fun hhead => hphase.1 hhead.1

/-! ## What has been written -/

/-- A rule that stays as it is counts as filled up. -/
theorem Fills.refl (t : Token) (r : Rule) : Fills t r r := ⟨rfl, rfl, .inl rfl⟩

namespace Writes

variable {g : Grammar}

/-- A rule is an old one, which only the token of the open rule fills up, or it stands behind all
others. -/
theorem rule_cases (h : Writes t s g) {j : RuleId} {r : Rule} (hr : g.rule? j = some r) :
    (∃ r₀, s.grammar.rule? j = some r₀ ∧ Fills t r₀ r ∧ (r ≠ r₀ → s.openRule = some j)) ∨
      j = s.grammar.rules.length ∧ Opens s.phase t g.table r := by
  -- most tokens leave all rules alone, so those cases come down to this
  have hkept (hold : s.grammar.rule? j = some r) :
      ∃ r₀, s.grammar.rule? j = some r₀ ∧ Fills t r₀ r ∧ (r ≠ r₀ → s.openRule = some j) :=
    ⟨r, hold, .refl t r, fun hne => absurd rfl hne⟩
  have hsame (hrules : g.rules = s.grammar.rules) : s.grammar.rule? j = some r := by
    rwa [Grammar.rule?, hrules] at hr
  cases h with
  | nothing h => exact .inl (hkept (hsame (congrArg Prod.fst h)))
  | importCode _ _ h => exact .inl (hkept (hsame (congrArg Prod.fst h)))
  | unionCode _ _ _ h => exact .inl (hkept (hsame (congrArg Prod.fst h)))
  | @rule id hopen f hf h =>
    have hrules : g.rules = s.grammar.rules.modify id f := congrArg Prod.fst h
    rw [Grammar.rule?, hrules, List.getElem?_modify] at hr
    obtain ⟨r₀, hr₀, rfl⟩ := Option.map_eq_some_iff.mp hr
    -- only the open rule is changed
    by_cases hid : id = j
    · subst hid
      simp only [if_true]
      exact .inl ⟨r₀, hr₀, hf r₀ hr₀, fun _ => hopen⟩
    · simp only [hid, if_false]
      exact .inl ⟨r₀, hr₀, .refl t r₀, fun hne => absurd rfl hne⟩
  | @newRule r' hr' h =>
    have hrules : g.rules = s.grammar.rules ++ [r'] := congrArg Prod.fst h
    rw [Grammar.rule?, hrules] at hr
    -- the new rule stands at the end, and all others keep their numbers
    rcases Nat.lt_or_ge j s.grammar.rules.length with hj | hj
    · rw [List.getElem?_append_left hj] at hr
      exact .inl (hkept hr)
    · rw [List.getElem?_append_right hj, List.getElem?_singleton] at hr
      split at hr
      · next hzero =>
        have hlast : j = s.grammar.rules.length :=
          Nat.le_antisymm (Nat.le_of_sub_eq_zero hzero) hj
        cases hr
        exact .inr ⟨hlast, hr'⟩
      · cases hr

/-- The line of a token is that of a new rule, or of none. -/
theorem lines_cases (h : Writes t s g) :
    g.rules.map Rule.line = s.grammar.rules.map Rule.line ∨
      g.rules.map Rule.line = s.grammar.rules.map Rule.line ++ [t.line] := by
  have hsame (hrules : g.rules = s.grammar.rules) :
      g.rules.map Rule.line = s.grammar.rules.map Rule.line := by rw [hrules]
  cases h with
  | nothing h => exact .inl (hsame (congrArg Prod.fst h))
  | importCode _ _ h => exact .inl (hsame (congrArg Prod.fst h))
  | unionCode _ _ _ h => exact .inl (hsame (congrArg Prod.fst h))
  | @rule id _ f hf h =>
    have hrules : g.rules = s.grammar.rules.modify id f := congrArg Prod.fst h
    left
    -- a rule that is filled up keeps its line
    apply List.ext_getElem?
    intro j
    rw [hrules, List.getElem?_map, List.getElem?_map, List.getElem?_modify]
    cases hr : s.grammar.rules[j]? with
    | none => rfl
    | some r =>
      by_cases hid : id = j
      · subst hid
        simp [(hf r hr).line]
      · simp [hid]
  | @newRule r hr h =>
    have hrules : g.rules = s.grammar.rules ++ [r] := congrArg Prod.fst h
    right
    rw [hrules, List.map_append, List.map_singleton, hr.line]

/-- The imported code is the old one, or the block at the top. -/
theorem importCode_cases (h : Writes t s g) :
    g.importCode = s.grammar.importCode ∨
      s.phase = .importBlock ∧ t.isImportBlock = true ∧
        g.importCode = some ⟨t.trimmed 1 2, t.line⟩ := by
  cases h with
  | nothing h => exact .inl (congrArg (fun w => w.2.1) h)
  | importCode hs ht h => exact .inr ⟨hs, ht, congrArg (fun w => w.2.1) h⟩
  | unionCode _ _ _ h => exact .inl (congrArg (fun w => w.2.1) h)
  | rule _ _ h => exact .inl (congrArg (fun w => w.2.1) h)
  | newRule _ h => exact .inl (congrArg (fun w => w.2.1) h)

/-- The code of the union is the old one, or the first block behind the keyword. -/
theorem unionCode_cases (h : Writes t s g) :
    g.unionCode = s.grammar.unionCode ∨
      ((s.phase = .tagOrBlock ∧ s.keyword = some .union) ∧ s.grammar.unionCode = none) ∧
        t.isBlock = true ∧ g.unionCode = some ⟨t.trimmed 1 1, t.line⟩ := by
  cases h with
  | nothing h => exact .inl (congrArg (fun w => w.2.2) h)
  | importCode _ _ h => exact .inl (congrArg (fun w => w.2.2) h)
  | unionCode hs hnone ht h => exact .inr ⟨⟨hs, hnone⟩, ht, congrArg (fun w => w.2.2) h⟩
  | rule _ _ h => exact .inl (congrArg (fun w => w.2.2) h)
  | newRule _ h => exact .inl (congrArg (fun w => w.2.2) h)

end Writes

/-! ## Sources -/

/-- A token is one of a list, and it was read in a state with a property. -/
def ReadIn (file : String) (ts : List Token) (P : State → Prop) (k : Token) : Prop :=
  ∃ before after, ts = before ++ k :: after ∧ P (consumeAll before (.initial file))

/-- The tokens that the rules and the codes of a grammar come from. -/
structure Sources (file : String) (ts : List Token) (g : Grammar) : Prop where
  /-- A rule comes from the token that was read when just the rules in front of it were there. It is
  the bar in front of the rule, or it was read where a left-hand side was waited for and is the
  name of that symbol. -/
  rule (j : RuleId) (r : Rule) (h : g.rule? j = some r) :
    ∃ k, r.line = k.line ∧ ReadIn file ts (fun s => s.grammar.rules.length = j ∧
      (k.is '|' = true ∨ s.phase = .ruleHead ∧ g.table.names[r.lhs]? = some k.text)) k
  /-- The rules come from different tokens, in the order of the tokens. -/
  lines : (g.rules.map Rule.line).Sublist (ts.map Token.line)
  /-- The code of a rule is the first block that was read while the rule was open. -/
  code (j : RuleId) (r : Rule) (c : CodeBlock) (h : g.rule? j = some r) (hc : r.code = some c) :
    ∃ k, k.first = '{' ∧ c = ⟨k.text, k.line⟩ ∧ ReadIn file ts (fun s => s.openRule = some j ∧
      ∃ r₀, s.grammar.rule? j = some r₀ ∧ r₀.code = none) k
  /-- The imported code is the block that was read behind the first mark. -/
  importCode (c : CodeBlock) (hc : g.importCode = some c) :
    ∃ k, k.isImportBlock = true ∧ c = ⟨k.trimmed 1 2, k.line⟩ ∧
      ReadIn file ts (fun s => s.phase = .importBlock) k
  /-- The code of the union is the first block that was read behind the keyword. -/
  unionCode (c : CodeBlock) (hc : g.unionCode = some c) :
    ∃ k, k.isBlock = true ∧ c = ⟨k.trimmed 1 1, k.line⟩ ∧
      ReadIn file ts (fun s => (s.phase = .tagOrBlock ∧ s.keyword = some .union) ∧
        s.grammar.unionCode = none) k

section Sources

variable {file : String} {ts : List Token} {P : State → Prop}

/-- What was read is one of the tokens. -/
theorem ReadIn.mem {k : Token} (h : ReadIn file ts P k) : k ∈ ts := by
  obtain ⟨before, after, rfl, -⟩ := h
  simp

/-- What was read stays read when another token follows. -/
theorem ReadIn.concat {k : Token} (h : ReadIn file ts P k) (t : Token) :
    ReadIn file (ts ++ [t]) P k := by
  obtain ⟨before, after, rfl, hs⟩ := h
  exact ⟨before, after ++ [t], by simp, hs⟩

/-- The last token was read in the state that the others lead to. -/
theorem readIn_last (h : P (consumeAll ts (.initial file))) (t : Token) :
    ReadIn file (ts ++ [t]) P t :=
  ⟨ts, [], rfl, h⟩

/-- At the start there is nothing that could have a source. -/
theorem sources_initial (file : String) : Sources file [] (State.initial file).grammar where
  rule _ _ h := nomatch h
  lines := List.nil_sublist _
  code _ _ _ h := nomatch h
  importCode _ h := nomatch h
  unionCode _ h := nomatch h

/-- One more token is the source of what it writes; all else keeps its source. -/
theorem Sources.concat (h : Sources file ts (consumeAll ts (.initial file)).grammar) (t : Token) :
    Sources file (ts ++ [t]) (consume t (consumeAll ts (.initial file))).grammar := by
  have hwrites := writes_consume t (consumeAll ts (.initial file))
  have hnames := names_prefix_of_edits (effect_consume t (consumeAll ts (.initial file))).grammar
  -- in each part: what is old keeps its source, and what is new comes from this token
  refine ⟨?_, ?_, ?_, ?_, ?_⟩
  · intro j r hr
    rcases hwrites.rule_cases hr with ⟨r₀, hr₀, hfills, -⟩ | ⟨rfl, hopens⟩
    · obtain ⟨k, hline, before, after, rfl, hcount, hlhs⟩ := h.rule j r₀ hr₀
      refine ⟨k, hfills.line.trans hline, before, after ++ [t], by simp, hcount, ?_⟩
      refine hlhs.imp_right fun hhead => ⟨hhead.1, ?_⟩
      -- the left-hand side has kept its name
      rw [hfills.lhs]
      obtain ⟨added, hadded⟩ := hnames
      rw [← hadded, List.getElem?_append_left (List.getElem?_eq_some_iff.mp hhead.2).1, hhead.2]
    · exact ⟨t, hopens.line, readIn_last ⟨rfl, hopens.lhs⟩ t⟩
  · rw [List.map_append]
    rcases hwrites.lines_cases with hlines | hlines
    · rw [hlines]
      exact h.lines.trans (List.sublist_append_left _ _)
    · rw [hlines]
      exact h.lines.append (List.Sublist.refl _)
  · intro j r c hr hc
    rcases hwrites.rule_cases hr with ⟨r₀, hr₀, hfills, hopen⟩ | ⟨-, hopens⟩
    · rcases hfills.code with hsame | ⟨hfirst, hnone, hcode⟩
      · obtain ⟨k, hfirst, hk, hread⟩ := h.code j r₀ c hr₀ (hsame ▸ hc)
        exact ⟨k, hfirst, hk, hread.concat t⟩
      · -- the code is new, so the rule has changed, which only the token of the open rule can do
        have hne : r ≠ r₀ := by
          rintro rfl
          rw [hnone] at hc
          cases hc
        rw [hcode, Option.some_inj] at hc
        exact ⟨t, hfirst, hc.symm, readIn_last ⟨hopen hne, r₀, hr₀, hnone⟩ t⟩
    · rw [hopens.code] at hc
      cases hc
  · intro c hc
    rcases hwrites.importCode_cases with hsame | ⟨hs, ht, hcode⟩
    · obtain ⟨k, hblock, hk, hread⟩ := h.importCode c (hsame ▸ hc)
      exact ⟨k, hblock, hk, hread.concat t⟩
    · rw [hcode, Option.some_inj] at hc
      exact ⟨t, ht, hc.symm, readIn_last hs t⟩
  · intro c hc
    rcases hwrites.unionCode_cases with hsame | ⟨hs, ht, hcode⟩
    · obtain ⟨k, hblock, hk, hread⟩ := h.unionCode c (hsame ▸ hc)
      exact ⟨k, hblock, hk, hread.concat t⟩
    · rw [hcode, Option.some_inj] at hc
      exact ⟨t, ht, hc.symm, readIn_last hs t⟩

/-- A code is on the line of a token that opens with a brace. -/
theorem Sources.exists_token_of_code {g : Grammar} (h : Sources file ts g) {c : CodeBlock}
    (hc : c ∈ g.codes) : ∃ k ∈ ts, k.first = '{' ∧ c.line = k.line := by
  rw [Grammar.codes, List.mem_append, List.mem_append] at hc
  -- all three kinds of blocks open with a brace
  rcases hc with (himport | hunion) | hrule
  · obtain ⟨k, hk, rfl, hread⟩ := h.importCode c (Option.mem_toList.mp himport)
    rw [Token.isImportBlock, Bool.and_eq_true, Bool.and_eq_true] at hk
    exact ⟨k, hread.mem, of_decide_eq_true hk.1.1, rfl⟩
  · obtain ⟨k, hk, rfl, hread⟩ := h.unionCode c (Option.mem_toList.mp hunion)
    rw [Token.isBlock, Bool.and_eq_true] at hk
    exact ⟨k, hread.mem, of_decide_eq_true hk.1, rfl⟩
  · obtain ⟨r, hr, hcode⟩ := List.mem_filterMap.mp hrule
    obtain ⟨j, hj⟩ := List.mem_iff_getElem?.mp hr
    obtain ⟨k, hk, rfl, hread⟩ := h.code j r c hj hcode
    exact ⟨k, hread.mem, hk, rfl⟩

/-- Whatever the tokens are, the rules and the codes come from them. -/
theorem sources_consumeAll (file : String) (ts : List Token) :
    Sources file ts (consumeAll ts (.initial file)).grammar := by
  -- on the last token, which is the source of what it writes
  induction ts using List.reverseRecOn with
  | nil => exact sources_initial file
  | append_singleton ts t ih =>
    rw [consumeAll_concat]
    exact ih.concat t

end Sources

end Reading

end YaccGrammar
