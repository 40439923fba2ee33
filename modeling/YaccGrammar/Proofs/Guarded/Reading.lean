import YaccGrammar.Guarded.Reading
import YaccGrammar.Proofs.Guarded.Grammar
import YaccGrammar.Proofs.Reading.Ending
import YaccGrammar.Proofs.Text.Scanner

/-!
# No access fails while a file is read

The state of reading agrees with a history, so the rule that is open exists, and its symbols do. The
chains of rules are in order, since reading only edits the grammar. So the guarded reactions are the
plain ones, and a guarded run over a text is the plain run, as long as the counter for precedences
does not run over.

## Main statements

- `react_eq_ok`, `consume_eq_ok`: a token is read without a fault.
- `run_eq_ok`, `parse_eq_ok`: a text is read without a fault.
-/

namespace YaccGrammar.Guarded

open Fault Reading

/-! ## Parts of reactions -/

section Parts

variable {s : State} {id : RuleId} {r : Rule}

/-- The empty rules of a chain, but for one, are those of the grammar with the same left-hand side.
-/
theorem any_rulesBelow (g : Grammar) (id : RuleId) (lhs : SymbolId) :
    ((rulesBelow g.rules lhs g.rules.length).any fun other =>
        other ≠ id && (g.rule? other).any (·.rhs.isEmpty)) =
      g.rules.zipIdx.any fun (rule, other) =>
        rule.lhs = lhs && other ≠ id && rule.rhs.isEmpty := by
  rw [Bool.eq_iff_iff, List.any_eq_true, List.any_eq_true]
  constructor
  · rintro ⟨other, hmem, hother⟩
    obtain ⟨-, hlhs⟩ := mem_rulesBelow.mp hmem
    obtain ⟨rule, hrule, hlhs⟩ := Option.map_eq_some_iff.mp hlhs
    refine ⟨(rule, other), List.mem_zipIdx_iff_getElem?.mpr hrule, ?_⟩
    simpa [Grammar.rule?, hrule, hlhs] using hother
  · rintro ⟨⟨rule, other⟩, hmem, hother⟩
    have hrule : g.rules[other]? = some rule := List.mem_zipIdx_iff_getElem?.mp hmem
    simp only [Bool.and_eq_true, decide_eq_true_eq] at hother
    refine ⟨other, mem_rulesBelow.mpr ⟨(List.getElem?_eq_some_iff.mp hrule).1, ?_⟩, ?_⟩
    · rw [hrule, Option.map_some, hother.1.1]
    · simpa [Grammar.rule?, hrule, hother.1.2] using hother.2

/-- The check for empty alternatives meets no fault: all rules of the chain exist. -/
theorem checkEmpty_eq_ok (hg : s.grammar.Chained) (hr : s.grammar.rule? id = some r) (line : Nat) :
    checkEmpty id line s = .ok (Reading.checkEmpty id r.lhs line s) := by
  have hlhs := hg.lhs r (List.mem_of_getElem? hr)
  obtain ⟨x, hx⟩ := SymbolTable.exists_get?_of_lt hlhs
  -- every rule of the chain exists
  have hothers : ((rulesBelow s.grammar.rules r.lhs s.grammar.rules.length).anyM fun other => do
      return other ≠ id && (← s.grammar.ruleAt other).rhs.isEmpty) =
      .ok (s.grammar.rules.zipIdx.any fun (rule, other) =>
        rule.lhs = r.lhs && other ≠ id && rule.rhs.isEmpty) := by
    rw [← any_rulesBelow]
    apply anyM_eq_ok
    intro other hother
    obtain ⟨rule, hrule, -⟩ := Option.map_eq_some_iff.mp (mem_rulesBelow.mp hother).2
    simp [ruleAt_eq_ok hrule, Grammar.rule?, hrule]
  unfold checkEmpty Reading.checkEmpty
  rw [ruleAt_eq_ok hr, ok_bind, symbol_eq_ok hx, ok_bind, rulesFor_eq_ok hg hlhs, ok_bind, hothers,
    ok_bind, name_eq_ok hlhs, SymbolTable.isNullable_eq_of_get? hx]
  dsimp only
  split <;> rfl

/-- An alternative of a known symbol is opened without a fault. -/
theorem openNew_eq_ok {lhs : SymbolId} (hlhs : lhs < s.grammar.table.size) (line : Nat) :
    openNew lhs line s = .ok (Reading.openNew lhs line s) := by
  rw [openNew, addRule_eq_ok hlhs]
  rfl

/-- A bar closes the open alternative and opens another one without a fault. -/
theorem newAlternative_eq_ok (hg : s.grammar.Chained) (hr : s.grammar.rule? id = some r)
    (line : Nat) : newAlternative id line s = .ok (Reading.newAlternative id line s) := by
  have hlhs := hg.lhs r (List.mem_of_getElem? hr)
  unfold newAlternative Reading.newAlternative
  rw [ruleAt_eq_ok hr, ok_bind, hr]
  dsimp only
  -- an empty alternative is checked and flagged, and a blank one is reused
  split
  · have hlhs' : r.lhs < (Reading.checkEmpty id r.lhs line s).grammar.table.size := by
      rwa [grammar_checkEmpty]
    rw [checkEmpty_eq_ok hg hr, ok_bind, modifySymbol_eq_ok hlhs', ok_bind]
    split
    · rfl
    · exact openNew_eq_ok (by simpa [withTable, State.modifyGrammar] using hlhs') line
  · exact openNew_eq_ok hlhs line

/-- A code block is given to the open alternative without a fault. -/
theorem attachCode_eq_ok (hg : s.grammar.Chained) (hr : s.grammar.rule? id = some r) (t : Token) :
    attachCode id t s = .ok (Reading.attachCode id t s) := by
  unfold attachCode Reading.attachCode
  rw [ruleAt_eq_ok hr, ok_bind, hr, modifyRule_eq_ok hr,
    name_eq_ok (hg.lhs r (List.mem_of_getElem? hr))]
  dsimp only
  split <;> rfl

/-- A semicolon closes the open alternative without a fault. -/
theorem endRule_eq_ok (hg : s.grammar.Chained) (hr : s.grammar.rule? id = some r) (line : Nat) :
    endRule id line s = .ok (Reading.endRule id line s) := by
  have hcheck := checkEmpty_eq_ok (s := { s with openRule := none }) hg hr line
  unfold endRule Reading.endRule
  dsimp only
  rw [ruleAt_eq_ok hr, ok_bind, hr]
  dsimp only
  split
  · rw [hcheck]
    rfl
  · rfl

/-- A symbol is added to the open alternative without a fault. -/
theorem appendSymbol_eq_ok (hr : s.grammar.rule? id = some r) (name : String) :
    appendSymbol id name s = .ok (Reading.appendSymbol id name s) := by
  have hr' : (s.grammar.intern name).2.rule? id = some r := hr
  unfold appendSymbol Reading.appendSymbol
  dsimp only
  rw [modifyRule_eq_ok hr']
  rfl

end Parts

/-! ## Declarations -/

section Declarations

variable {h : History} {s : State}

/-- The table of a declaration: the name is interned and gets the tag. -/
def taggedTable (s : State) (t : Token) : SymbolTable :=
  (s.grammar.table.insert t.text).2.modify (s.grammar.table.insert t.text).1 (Symbol.retag s.tag)

/-- The symbol of a declared name is given its tag without a fault. -/
theorem setTag_eq_ok (s : State) (t : Token) :
    setTag s.tag (s.grammar.table.insert t.text).1 (s.grammar.table.insert t.text).2 =
      .ok (taggedTable s t) := by
  unfold taggedTable
  cases s.tag with
  | none =>
    rw [SymbolTable.modify_eq_self (f := Symbol.retag none) fun _ => rfl]
    rfl
  | some tag => exact modifySymbol_eq_ok (SymbolTable.insert_fst_lt_size _ _) _

/-- The symbol of a declared name exists, and its kind is the one that the name tells. -/
theorem get?_taggedTable (hs : Agrees h s) (t : Token) :
    ∃ x, (taggedTable s t).get? (s.grammar.table.insert t.text).1 = some x ∧
      x.kind = .ofName t.text := by
  obtain ⟨x, hx, hkind⟩ := hs.exists_interned t.text
  refine ⟨x.retag s.tag, ?_, hkind⟩
  rw [taggedTable, SymbolTable.get?_modify, if_pos rfl, hx, Option.map_some]

/-- A symbol is of the kind that its name tells, so no declaration moves it from one count to the
other. -/
theorem setKind_taggedTable_eq_ok (hs : Agrees h s) {t : Token} {kind : SymbolKind}
    (hkind : .ofName t.text = kind) :
    setKind (taggedTable s t) (s.grammar.table.insert t.text).1 kind =
      .ok ((taggedTable s t).setKind (s.grammar.table.insert t.text).1 kind) := by
  obtain ⟨x, hx, hname⟩ := get?_taggedTable hs t
  exact setKind_eq_ok hx (hname.trans hkind)

/-- The symbol of a declared name can be given a precedence. -/
theorem modifySymbol_taggedTable_eq_ok (hs : Agrees h s) (t : Token) (kind : SymbolKind)
    (f : Symbol → Symbol) :
    modifySymbol ((taggedTable s t).setKind (s.grammar.table.insert t.text).1 kind)
        (s.grammar.table.insert t.text).1 f =
      .ok (((taggedTable s t).setKind (s.grammar.table.insert t.text).1 kind).modify
        (s.grammar.table.insert t.text).1 f) := by
  obtain ⟨x, hx, -⟩ := get?_taggedTable hs t
  apply modifySymbol_eq_ok
  rw [SymbolTable.size_setKind]
  exact SymbolTable.lt_size_of_get? hx

/-- If the name gets a precedence, the counter has room for one more. -/
theorem raise_eq_ok_of_declare (hs : Agrees h s) {k : Keyword} {t : Token}
    (hcount : (Reading.declare k t s).nextPrecedence < UInt32.size) (hk : assocOf k ≠ .unknown)
    (hname : Name.isTerminal t.text = true) :
    raise s.nextPrecedence = .ok (s.nextPrecedence + 1) := by
  obtain ⟨x, hx, hkind⟩ := hs.exists_interned t.text
  obtain ⟨errors, heq, -⟩ := Reading.declare_eq (e := ⟨k, s.tag, t.text⟩) rfl rfl hx hkind
  apply raise_of_lt
  simpa [heq, DeclEntry.ranks, hk, hname] using hcount

/-- A name is declared without a fault, as long as the counter has room. -/
theorem declare_eq_ok (hs : Agrees h s) (k : Keyword) (t : Token)
    (hcount : (Reading.declare k t s).nextPrecedence < UInt32.size) :
    declare k t s = .ok (Reading.declare k t s) := by
  have hraise := raise_eq_ok_of_declare hs hcount
  have htag := setTag_eq_ok s t
  unfold Reading.declare
  lift_lets
  intro id g
  -- a declaration interns the name and tags it before it looks at the keyword
  have hg : g = { s.grammar with table := taggedTable s t } := by
    simp only [g, taggedTable, id, Grammar.intern]
    cases s.tag with
    | none => rw [SymbolTable.modify_eq_self (f := Symbol.retag none) fun _ => rfl]
    | some tag => rfl
  unfold declare
  dsimp only
  rw [htag, ok_bind]
  clear_value g
  subst hg
  cases k with
  | type =>
    dsimp only
    split
    · next hname =>
      rw [setKind_taggedTable_eq_ok hs (SymbolKind.ofName_of_isNonterminal hname)]
      rfl
    · rfl
  | token =>
    dsimp only
    split
    · next hname =>
      rw [setKind_taggedTable_eq_ok hs (SymbolKind.ofName_of_isTerminal hname)]
      rfl
    · rfl
  | left | right | nonassoc =>
    dsimp only
    split
    · next hname =>
      rw [setKind_taggedTable_eq_ok hs (SymbolKind.ofName_of_isTerminal hname), ok_bind,
        modifySymbol_taggedTable_eq_ok hs, ok_bind]
      show (raise s.nextPrecedence >>= fun count => _) = _
      rw [hraise (by decide) hname]
      rfl
    · rfl
  | start =>
    dsimp only
    split
    · rfl
    · exact (apply_ite Except.ok _ _ _).symm
  | prec | union => rfl

end Declarations

/-! ## Reactions -/

section Reactions

variable {h : History} {s : State}

/-- The rule that is open exists. -/
theorem exists_rule_of_openRule (hs : Agrees h s) {id : RuleId} (hopen : s.openRule = some id) :
    ∃ r, s.grammar.rule? id = some r := by
  have hcurrent := hs.openRule
  rw [hopen] at hcurrent
  obtain ⟨a, ha, -⟩ := Option.map_eq_some_iff.mp hcurrent.symm
  obtain ⟨r, hr, -⟩ := hs.rule?_of_openRule ha hopen
  exact ⟨r, hr⟩

/-- Among declared names a token is read without a fault, as long as the counter has room. -/
theorem reactDeclaredNames_eq_ok (hs : Agrees h s) (t : Token)
    (hcount : (Reading.reactDeclaredNames t s).state.nextPrecedence < UInt32.size) :
    reactDeclaredNames t s = .ok (Reading.reactDeclaredNames t s).state := by
  unfold reactDeclaredNames Reading.reactDeclaredNames at *
  dsimp only [Reaction.state] at hcount ⊢
  split
  · rfl
  · cases hkeyword : s.keyword with
    | none => rfl
    | some k =>
      next hmark =>
      rw [if_neg hmark, hkeyword] at hcount
      dsimp only at hcount ⊢
      split
      · rfl
      · next htag =>
        rw [if_neg htag] at hcount
        exact declare_eq_ok hs k t hcount

/-- Where a rule may begin, a token is read without a fault. -/
theorem reactRuleHead_eq_ok (t : Token) (s : State) :
    reactRuleHead t s = .ok (Reading.reactRuleHead t s).state := by
  have hopen : openNew (s.grammar.intern t.text).1 t.line
      { s with grammar := (s.grammar.intern t.text).2 } = .ok (Reading.openNew _ _ _) :=
    openNew_eq_ok (SymbolTable.insert_fst_lt_size _ _) t.line
  unfold reactRuleHead Reading.reactRuleHead
  dsimp only [Reaction.state]
  split
  · split <;> rfl
  split
  · rw [hopen]
    rfl
  · rfl

/-- Inside an alternative a token is read without a fault. -/
theorem reactRuleBody_eq_ok (hs : Agrees h s) (hg : s.grammar.Chained) (t : Token) :
    reactRuleBody t s = .ok (Reading.reactRuleBody t s).state := by
  unfold reactRuleBody Reading.reactRuleBody
  dsimp only [Reaction.state]
  cases hopen : s.openRule with
  | none => rfl
  | some id =>
    obtain ⟨r, hr⟩ := exists_rule_of_openRule hs hopen
    dsimp only
    -- the token is a bar, a code block, a mark, a semicolon, a symbol, or out of place
    split
    · exact newAlternative_eq_ok hg hr t.line
    split
    · exact attachCode_eq_ok hg hr t
    split
    · rfl
    split
    · exact endRule_eq_ok hg hr t.line
    split
    · exact appendSymbol_eq_ok hr t.text
    · rfl

/-- Behind `%prec` a token is read without a fault. -/
theorem reactPrecSymbol_eq_ok (hs : Agrees h s) (t : Token) :
    reactPrecSymbol t s = .ok (Reading.reactPrecSymbol t s).state := by
  unfold reactPrecSymbol Reading.reactPrecSymbol
  dsimp only [Reaction.state]
  cases hfind : (s.goto .afterPrec).grammar.table.find? t.text with
  | none => rfl
  | some symbol =>
    cases hopen : (s.goto .afterPrec).openRule with
    | none => rfl
    | some id =>
      obtain ⟨r, hr⟩ := exists_rule_of_openRule hs hopen
      -- a name is found at a symbol that bears it
      obtain ⟨x, hx, -⟩ :=
        Option.map_eq_some_iff.mp ((SymbolTable.find?_eq_some_iff _ _ _).mp hfind).1
      have hrule : (s.goto .afterPrec).grammar.rule? id = some r := hr
      dsimp only
      rw [symbol_eq_ok hx, ok_bind, modifyRule_eq_ok hrule]
      rfl

/-- Behind the precedence of an alternative a token is read without a fault. -/
theorem reactAfterPrec_eq_ok (hs : Agrees h s) (hg : s.grammar.Chained) (t : Token) :
    reactAfterPrec t s = .ok (Reading.reactAfterPrec t s).state := by
  unfold reactAfterPrec Reading.reactAfterPrec
  dsimp only [Reaction.state]
  cases hopen : s.openRule with
  | none => rfl
  | some id =>
    obtain ⟨r, hr⟩ := exists_rule_of_openRule hs hopen
    dsimp only
    -- the token is a code block, a bar, a semicolon, or out of place
    split
    · exact attachCode_eq_ok hg hr t
    split
    · rw [newAlternative_eq_ok hg hr]
      rfl
    split
    · exact endRule_eq_ok hg hr t.line
    · rfl

/-- What a state makes of a token, it makes without a fault. -/
theorem react_eq_ok (hs : Agrees h s) (hg : s.grammar.Chained) (t : Token)
    (hcount : (Reading.react t s).state.nextPrecedence < UInt32.size) :
    react t s = .ok (Reading.react t s) := by
  unfold react Reading.react at *
  cases hphase : s.phase with
  | declaredNames =>
    rw [hphase] at hcount
    dsimp only at hcount ⊢
    rw [reactDeclaredNames_eq_ok hs t hcount]
    rfl
  | ruleHead =>
    dsimp only
    rw [reactRuleHead_eq_ok]
    rfl
  | ruleBody =>
    dsimp only
    rw [reactRuleBody_eq_ok hs hg]
    rfl
  | precSymbol =>
    dsimp only
    rw [reactPrecSymbol_eq_ok hs]
    rfl
  | afterPrec =>
    dsimp only
    rw [reactAfterPrec_eq_ok hs hg]
    rfl
  | preamble | importBlock | declaration | keyword | tagOrBlock | colon | precKeyword
  | trailerMark | trailer => rfl

end Reactions

/-! ## Tokens -/

/-- A state that reading can be in: it agrees with a history, and its chains are in order. -/
structure Trusted (s : State) : Prop where
  agrees : ∃ h, Agrees h s
  chained : s.grammar.Chained

namespace Trusted

variable {s : State}

/-- Reading can be in its initial state. -/
theorem initial (file : String) : Trusted (.initial file) where
  agrees := ⟨_, agrees_initial file⟩
  chained := ⟨by simp [State.initial], nofun, nofun⟩

/-- A reaction leaves a state that reading can be in. -/
theorem react (hs : Trusted s) (t : Token) : Trusted (Reading.react t s).state where
  agrees := by
    obtain ⟨h, hagrees⟩ := hs.agrees
    exact ⟨_, hagrees.react t⟩
  chained := hs.chained.edits (effect_react t s).grammar

/-- A token leaves a state that reading can be in. -/
theorem consume (hs : Trusted s) (t : Token) : Trusted (Reading.consume t s) :=
  consume_induction (fun t _ hs => hs.react t) t hs

/-- A diagnostic leaves a state that reading can be in. -/
theorem report (hs : Trusted s) (line : Nat) (problem : Problem) :
    Trusted (s.report line problem) where
  agrees := by
    obtain ⟨h, hagrees⟩ := hs.agrees
    exact ⟨h, hagrees.report line problem⟩
  chained := hs.chained

/-- The trailing code leaves a state that reading can be in. -/
theorem setTrailer (hs : Trusted s) (code : String) (line : Nat) :
    Trusted (s.setTrailer code line) where
  agrees := by
    obtain ⟨h, hagrees⟩ := hs.agrees
    exact ⟨h, hagrees.of_core rfl hagrees.inRule⟩
  chained := hs.chained.of_table rfl (Nat.le_refl _) fun _ x hx => .inl ⟨x, hx, rfl⟩

/-- Whatever number occurs in the grammar is that of a name that was mentioned. -/
theorem sound (hs : Trusted s) : Sound s.grammar := by
  obtain ⟨h, hagrees⟩ := hs.agrees
  refine ⟨hagrees.fresh.inRange, fun r hr id hid => ?_, fun id hid => ?_, hs.chained⟩
  · obtain ⟨a, -, hra⟩ := exists_of_mem_left hagrees.rules hr
    have hprec := hra.prec
    rw [hid] at hprec
    -- a precedence that is known by number is that of a name
    generalize a.prec = name at hprec
    cases hprec with
    | some hnumber => exact hagrees.lt_size_of_numbers hnumber
  · have hstart := hagrees.declaredStart
    rw [hid] at hstart
    generalize DeclEntry.start? h.entries = name at hstart
    cases hstart with
    | some hnumber => exact hagrees.lt_size_of_numbers hnumber

end Trusted

/-- A token is used up without a fault, as long as the counter has room. -/
theorem consume_eq_ok {s : State} (hs : Trusted s) (t : Token)
    (hcount : (Reading.consume t s).nextPrecedence < UInt32.size) :
    consume t s = .ok (Reading.consume t s) := by
  obtain ⟨h, hagrees⟩ := hs.agrees
  have hfirst := react_eq_ok hagrees hs.chained t
  have hagain := hs.react t
  unfold consume Reading.consume at *
  -- a token that is used up at once needs one reaction, another one needs two
  cases hreact : Reading.react t s with
  | done s' =>
    rw [hreact] at hcount hfirst
    rw [hfirst hcount]
    rfl
  | again s' =>
    rw [hreact] at hcount hfirst hagain
    dsimp only [Reaction.state] at hcount hfirst hagain
    -- no precedence is taken back by the second reaction
    have hle := (effect_react t s').nextPrecedence
    obtain ⟨h', hagrees'⟩ := hagain.agrees
    rw [hfirst (Nat.lt_of_le_of_lt hle hcount), ok_bind]
    dsimp only
    rw [react_eq_ok hagrees' hagain.chained t hcount]
    rfl

/-! ## Texts -/

/-- A run never turns the counter back. -/
theorem nextPrecedence_le_run {n : Nat} {t : Tokenizer} {s : State} {r : Run}
    (hrun : Reading.run n t s = .ok r) : s.nextPrecedence ≤ r.state.nextPrecedence :=
  run_induction (P := fun s' => s.nextPrecedence ≤ s'.nextPrecedence)
    (fun k _ hs => consume_induction (P := fun s' => s.nextPrecedence ≤ s'.nextPrecedence)
      (fun t s' hs' => hs'.trans (effect_react t s').nextPrecedence) k hs)
    (fun _ _ _ hs => hs) (fun _ _ _ hs => hs) (Nat.le_refl _) hrun

/-- With a guarded scanner the trailing code is captured as it is with the plain one. -/
theorem captureTrailer_tokenizer (m : Scanner) (s : State) :
    ((captureTrailer m s).1.tokenizer, (captureTrailer m s).2) =
      Reading.captureTrailer m.tokenizer s := by
  unfold captureTrailer Reading.captureTrailer
  split <;> rfl

/-- Capturing the trailing code leaves no more characters unread than before. -/
theorem length_captureTrailer (m : Scanner) (s : State) :
    (captureTrailer m s).1.source.unread.length ≤ m.source.unread.length := by
  unfold captureTrailer
  split
  · exact Nat.zero_le _
  · exact Nat.le_refl _

/-- The trailing code declares no precedence. -/
theorem nextPrecedence_captureTrailer (m : Scanner) (s : State) :
    (captureTrailer m s).2.nextPrecedence = s.nextPrecedence := by
  unfold captureTrailer
  split <;> rfl

/-- Capturing the trailing code leaves a state that reading can be in. -/
theorem Trusted.captureTrailer {s : State} (hs : Trusted s) (m : Scanner) :
    Trusted (captureTrailer m s).2 := by
  unfold Guarded.captureTrailer
  split
  · exact hs.setTrailer _ _
  · exact hs

/-- A guarded run is the plain run. It has a step left as long as a character is unread, since every
token has at least one. -/
theorem run_eq_ok {n : Nat} {m : Scanner} {s : State} {r : Run} (hs : Trusted s)
    (hleft : m.source.unread.length < n) (hrun : Reading.run n m.tokenizer s = .ok r)
    (hcount : r.state.nextPrecedence < UInt32.size) : run n m s = .ok r := by
  induction n generalizing m s r with
  | zero => exact absurd hleft (Nat.not_lt_zero _)
  | succ n ih =>
    have hnext := m.next_eq
    cases hfound : m.next with
    | error fault =>
      -- the tokenizer meets no fault
      obtain ⟨found, hok⟩ := m.tokenizer.next_isOk
      rw [hfound, hok] at hnext
      cases hnext
    | ok found =>
      obtain ⟨found, m'⟩ := found
      rw [hfound] at hnext
      replace hnext : m.tokenizer.next = .ok (found, m'.tokenizer) := hnext.symm
      rw [run, hfound, ok_bind]
      rw [Reading.run, hnext] at hrun
      cases found with
      -- nothing is left
      | nothing =>
        cases hrun
        rfl
      -- a construct is cut off, which both runs report alike
      | cut what =>
        cases hrun
        rfl
      | token k =>
        have hcapture := captureTrailer_tokenizer m' (Reading.consume k s)
        change (Reading.run n (Reading.captureTrailer m'.tokenizer (Reading.consume k s)).1
          (Reading.captureTrailer m'.tokenizer (Reading.consume k s)).2 >>= fun r =>
            Except.ok { r with tokens := k :: r.tokens }) = .ok r at hrun
        rw [← hcapture] at hrun
        dsimp only at hrun ⊢
        cases hlater : Reading.run n (captureTrailer m' (Reading.consume k s)).1.tokenizer
            (captureTrailer m' (Reading.consume k s)).2 with
        | error e =>
          rw [hlater] at hrun
          cases hrun
        | ok r' =>
          rw [hlater] at hrun
          cases hrun
          -- the token has been taken from the text, and the counter has not run over before it
          have hshorter : m'.source.unread.length < m.source.unread.length :=
            Tokenizer.length_of_next hnext
          have hbehind := length_captureTrailer m' (Reading.consume k s)
          have hle := nextPrecedence_le_run hlater
          rw [nextPrecedence_captureTrailer] at hle
          rw [consume_eq_ok hs k (Nat.lt_of_le_of_lt hle hcount), ok_bind,
            ih ((hs.consume k).captureTrailer m') (by omega) hlater hcount]
          rfl

/-- The check at the end of a reading meets no fault. -/
theorem outcome_eq_ok {r : Run} (hr : Trusted r.state) : outcome r = .ok r.outcome := by
  unfold outcome Run.outcome
  rw [hr.sound.verify_eq_ok]
  split <;> rfl

/-- The state in which a reading ends is one that reading can be in. -/
theorem trusted_of_readText {file text : String} {r : Run} (hread : readText file text = .ok r) :
    Trusted r.state :=
  run_induction (fun k _ hs => hs.consume k) (fun _ code line hs => hs.setTrailer code line)
    (fun _ line problem hs => hs.report line problem) (.initial file) hread

/-- A text is read without a fault. -/
theorem parse_eq_ok {file text : String} {r : Run} (hread : readText file text = .ok r)
    (hcount : r.state.nextPrecedence < UInt32.size) : parse file text = .ok r.outcome := by
  have hrun : Guarded.run (text.toList.length + 1) (.ofString text) (.initial file) = .ok r :=
    run_eq_ok (.initial file) (Nat.lt_succ_self _) hread hcount
  rw [parse, hrun, ok_bind, outcome_eq_ok (trusted_of_readText hread)]

end YaccGrammar.Guarded
