import YaccGrammar.Proofs.Description.Basic
import YaccGrammar.Proofs.Reading.Closing

/-!
# Reading the tokens of a description

What every token of a description does to a state that nothing has gone wrong in. Such a state is
told by a record, which is a history without the lines of its tokens, and by its phase.

## Main statements

- `Stands.name`, `Stands.symbol`, `Stands.bar` and the others: one for every kind of token.
-/

namespace YaccGrammar.Reading

open Text

/-! ## Records -/

/-- What a history has written down, apart from the lines of the closing tokens. -/
structure Record where
  line : Option (Keyword × Option String) := none
  entries : List DeclEntry := []
  mentions : List String := []
  closings : List (Alternative × Bool) := []
  current : Option Alternative := none
  importCode : Option String := none
  unionCode : Option String := none

/-- The alternatives that are kept as rules: all but the blank ones in front of a bar. -/
def Record.kept (w : Record) : List Alternative :=
  (w.closings.filter fun c => !(c.1.isBlank && c.2)).map Prod.fst

/-- The record of a history. -/
def History.record (h : History) : Record where
  line := h.line
  entries := h.entries
  mentions := h.mentions
  closings := h.closed.map fun c => (c.alternative, c.byBar)
  current := h.current
  importCode := h.importCode
  unionCode := h.unionCode

/-- A record keeps the alternatives that its history keeps. -/
theorem History.kept_record (h : History) : h.record.kept = h.kept := by
  rw [Record.kept, History.record, List.filter_map, List.map_map]
  rfl

/-- Reading has got as far as the record says, and nothing was out of place. -/
structure Stands (w : Record) (phase : Phase) (s : State) : Prop where
  agrees : ∃ h, Agrees h s ∧ h.record = w
  phase : s.phase = phase
  errors : s.errors = []

/-- In the beginning nothing is recorded. -/
theorem stands_initial (file : String) : Stands {} .preamble (.initial file) where
  agrees := ⟨{}, agrees_initial file, rfl⟩
  phase := rfl
  errors := rfl

/-- A token that is used up at once. -/
theorem Stands.step {w w' : Record} {phase phase' : Phase} {s s' : State} {t : Token}
    (hs : Stands w phase s) (hreact : react t s = .done s') (hphase : s'.phase = phase')
    (herrors : s'.errors = s.errors)
    (hobserve : ∀ h : History, h.record = w → (h.observe phase t).record = w') :
    Stands w' phase' (consume t s) := by
  obtain ⟨h, hh, hw⟩ := hs.agrees
  have hconsume : consume t s = s' := by rw [consume, hreact]
  have hread : h.read t s = h.observe phase t := by
    rw [History.read, hreact, hs.phase]
  refine ⟨⟨h.observe phase t, ?_, hobserve h hw⟩, ?_, ?_⟩
  · rw [← hread]
    exact agrees_consume hh t
  · rw [hconsume, hphase]
  · rw [hconsume, herrors, hs.errors]

namespace Stands

variable {w : Record} {phase : Phase} {s : State} {t : Token}

/-! ## The head of the file -/

/-- The first mark announces the block at the top. -/
theorem preambleMark (hs : Stands w .preamble s) (ht : t.text = "%") :
    Stands w .importBlock (consume t s) := by
  have hmark := Token.is_percent ht
  have hreact : react t s = .done (s.goto .importBlock) := by
    simp only [react, hs.phase, reactPreamble, hmark, if_true]
  exact hs.step hreact rfl rfl fun h hw => hw

/-- The block at the top is recorded without its marks. -/
theorem importBlock (hs : Stands w .importBlock s) (hblock : t.isImportBlock = true) :
    Stands { w with importCode := some (t.trimmed 1 2) } .declaration (consume t s) := by
  have hreact : react t s = .done ((s.modifyGrammar fun g =>
      { g with importCode := some ⟨t.trimmed 1 2, t.line⟩ }).goto .declaration) := by
    simp only [react, hs.phase, reactImportBlock, hblock, if_true]
  refine hs.step hreact rfl rfl fun h hw => ?_
  simp only [History.observe, hblock, if_true, ← hw]
  rfl

/-! ## Declarations -/

/-- A mark between declarations announces a keyword. -/
theorem declarationMark (hs : Stands w .declaration s) (ht : t.text = "%") :
    Stands w .keyword (consume t s) := by
  have hmark := Token.is_percent ht
  have hreact : react t s = .done (s.goto .keyword) := by
    simp only [react, hs.phase, reactDeclaration, hmark, if_true]
  exact hs.step hreact rfl rfl fun h hw => hw

/-- A mark behind names ends their declaration and announces a keyword. -/
theorem namesMark (hs : Stands w .declaredNames s) (ht : t.text = "%") :
    Stands { w with line := none } .keyword (consume t s) := by
  have hmark := Token.is_percent ht
  have hreact : react t s = .done { s with keyword := none, tag := none, phase := .keyword } := by
    simp only [react, hs.phase, reactDeclaredNames, hmark, if_true]
  refine hs.step hreact rfl rfl fun h hw => ?_
  simp only [History.observe, History.observeName, hmark, if_true, ← hw]
  rfl

/-- The second mark in a row ends the declarations. -/
theorem rulesMark (hs : Stands w .keyword s) (ht : t.text = "%") :
    Stands w .ruleHead (consume t s) := by
  have hmark := Token.is_percent ht
  have hreact : react t s = .done (s.goto .ruleHead) := by
    simp only [react, hs.phase, reactKeyword, hmark, if_true]
  refine hs.step hreact rfl rfl fun h hw => ?_
  simp only [History.observe, History.observeKeyword, hmark, if_true, hw]

/-- A keyword other than `%prec` begins a declaration. -/
theorem keyword (hs : Stands w .keyword s) {k : Keyword}
    (hword : Keyword.ofWord? t.text = some k) (hk : k ≠ .prec) :
    Stands { w with line := some (k, none) } .tagOrBlock (consume t s) := by
  have hmark : t.is '%' = false := Token.is_eq_false_of_keyword hword
  have hreact : react t s =
      .done { s with tag := none, keyword := some k, phase := .tagOrBlock } := by
    simp only [react, hs.phase, reactKeyword, hmark, hword]
    rfl
  refine hs.step hreact rfl rfl fun h hw => ?_
  simp only [History.observe, History.observeKeyword, hmark, hword, ← hw]
  rfl

/-- The keyword of the declaration that is being read. -/
theorem keyword_eq (hs : Stands w phase s) {k : Keyword} {tag : Option String}
    (hline : w.line = some (k, tag)) : s.keyword = some k := by
  obtain ⟨h, hh, hw⟩ := hs.agrees
  rw [hh.keyword, show h.line = w.line by rw [← hw]; rfl, hline]
  rfl

/-- The code of `%union` is that which the grammar holds. -/
theorem unionCode_eq (hs : Stands w phase s) :
    s.grammar.unionCode.map CodeBlock.code = w.unionCode := by
  obtain ⟨h, hh, hw⟩ := hs.agrees
  rw [hh.unionCode, ← hw]
  rfl

/-- The first block behind `%union` is recorded without its braces. -/
theorem unionBlock (hs : Stands w .tagOrBlock s) (hline : w.line = some (.union, none))
    (hunion : w.unionCode = none) (hblock : t.isBlock = true) :
    Stands { w with line := none, unionCode := some (t.trimmed 1 1) } .declaration
      (consume t s) := by
  have hkeyword := hs.keyword_eq hline
  -- no block was read before, so this one counts
  have hnone : s.grammar.unionCode = none :=
    Option.map_eq_none_iff.mp (hs.unionCode_eq.trans hunion)
  have hreact : react t s = .done
      { s.modifyGrammar (fun g => { g with unionCode := some ⟨t.trimmed 1 1, t.line⟩ }) with
        keyword := none
        phase := .declaration } := by
    simp only [react, hs.phase, reactTagOrBlock, hkeyword, readUnion, hblock, hnone, if_true]
  refine hs.step hreact rfl rfl fun h hw => ?_
  have hline' : h.line = some (.union, none) := by rw [← hline, ← hw]; rfl
  have hunion' : h.unionCode = none := by rw [← hunion, ← hw]; rfl
  simp only [History.observe, History.observeTagOrBlock, hline', hunion', hblock, if_true, ← hw]
  rfl

/-- A tag holds for all names of its declaration. -/
theorem tag (hs : Stands w .tagOrBlock s) {k : Keyword} (hk : k ≠ .union)
    (hline : w.line = some (k, none)) (hfirst : t.first = '<') :
    Stands { w with line := some (k, some (t.trimmed 1 1)) } .declaredNames (consume t s) := by
  have hkeyword := hs.keyword_eq hline
  have hreact : react t s =
      .done { s with tag := some (t.trimmed 1 1), phase := .declaredNames } := by
    simp only [react, hs.phase, reactTagOrBlock, hkeyword, Option.some_inj, hk, hfirst, if_true,
      if_false]
  refine hs.step hreact rfl rfl fun h hw => ?_
  have hline' : h.line = some (k, none) := by rw [← hline, ← hw]; rfl
  simp only [History.observe, History.observeTagOrBlock, hline', hk, hfirst, if_true, if_false,
    ← hw]
  rfl

/-- Without a tag the names begin behind the keyword. -/
theorem consume_tagOrBlock (hs : Stands w .tagOrBlock s) {k : Keyword} (hk : k ≠ .union)
    (hline : w.line = some (k, none)) (hfirst : t.first ≠ '<') :
    Stands w .declaredNames (s.goto .declaredNames) ∧
      consume t s = consume t (s.goto .declaredNames) := by
  have hkeyword := hs.keyword_eq hline
  obtain ⟨h, hh, hw⟩ := hs.agrees
  have hgoto : Agrees h (s.goto .declaredNames) := hh.goto (by rw [hs.phase]; decide)
  refine ⟨⟨⟨h, hgoto, hw⟩, rfl, hs.errors⟩, ?_⟩
  -- the token is read again among the names, where every token is used up
  have hreact : react t s = .again (s.goto .declaredNames) := by
    simp only [react, hs.phase, reactTagOrBlock, hkeyword, Option.some_inj, hk, hfirst, if_false]
  exact consume_of_again hreact

/-- A name that its keyword accepts is recorded as an entry and as a mention. -/
theorem name (hs : Stands w .declaredNames s) {k : Keyword} {tag : Option String}
    (hline : w.line = some (k, tag)) (hmark : t.is '%' = false) (hfirst : t.first ≠ '<')
    (haccepts : accepts k t.text = true) (hstart : k = .start → DeclEntry.start? w.entries = none) :
    Stands { w with
        entries := w.entries ++ [⟨k, tag, t.text⟩]
        mentions := w.mentions ++ [t.text] } .declaredNames (consume t s) := by
  have hkeyword := hs.keyword_eq hline
  obtain ⟨h, hh, hw⟩ := hs.agrees
  -- a start symbol is refused only if another one was declared
  have hfresh : k = .start → s.grammar.declaredStart = none := by
    intro hk
    have hnone : DeclEntry.start? h.entries = none := by
      rw [← hw] at hstart
      exact hstart hk
    have hnone' := isNone_eq_of_rel hh.declaredStart
    rw [hnone] at hnone'
    exact Option.isNone_iff_eq_none.mp hnone'
  obtain ⟨x, hx, hkind⟩ := hh.exists_interned t.text
  -- the diagnostics are those from before, since the keyword accepts the name
  obtain ⟨errors, hdeclare, herrors⟩ := declare_eq rfl rfl hx hkind
  -- names are used up by their declaration, whatever it makes of them
  have hreact : react t s = .done (declare k t s) := by
    simp only [react, hs.phase, reactDeclaredNames, hmark, hkeyword, hfirst, if_false,
      Bool.false_eq_true]
  refine hs.step hreact ?_ ?_ fun h hw => ?_
  · rw [hdeclare]
    exact hs.phase
  · rw [hdeclare]
    exact herrors haccepts hfresh
  · have hline' : h.line = some (k, tag) := by rw [← hline, ← hw]; rfl
    simp only [History.observe, History.observeName, hmark, hline', hfirst, if_false,
      Bool.false_eq_true, ← hw]
    rw [← hline']
    rfl

/-! ## Rules -/

/-- A nonterminal opens an alternative of its own. -/
theorem head (hs : Stands w .ruleHead s) (hname : Name.isNonterminal t.text = true) :
    Stands { w with mentions := w.mentions ++ [t.text], current := some { lhs := t.text } }
      .colon (consume t s) := by
  -- the mark `%` is no name of a nonterminal
  have hmark : t.is '%' = false := by
    rw [Bool.eq_false_iff]
    intro his
    rw [Token.isNonterminal_eq_false_of_is his (by decide)] at hname
    contradiction
  have hreact : react t s = .done ((openNew (s.grammar.intern t.text).1 t.line
      { s with grammar := (s.grammar.intern t.text).2 }).goto .colon) := by
    simp only [react, hs.phase, reactRuleHead, hmark, hname, if_true, if_false, Bool.false_eq_true]
  refine hs.step hreact rfl rfl fun h hw => ?_
  simp only [History.observe, History.observeHead, hname, if_true, ← hw]
  rfl

/-- The colon behind a left-hand side changes nothing that is recorded. -/
theorem colon (hs : Stands w .colon s) (ht : t.text = ":") :
    Stands w .ruleBody (consume t s) := by
  have hmark : t.is ':' = true := Token.is_of_text (by rw [ht]; rfl)
  have hreact : react t s = .done (s.goto .ruleBody) := by
    simp only [react, hs.phase, reactColon, hmark, if_true]
  exact hs.step hreact rfl rfl fun h hw => hw

/-- Inside an alternative a rule is open, which tells it. -/
theorem exists_rule (hs : Stands w phase s) {a : Alternative} (hcurrent : w.current = some a) :
    ∃ h id r, Agrees h s ∧ h.record = w ∧ h.current = some a ∧ s.openRule = some id ∧
      s.grammar.rule? id = some r ∧ Matches h.names r a := by
  obtain ⟨h, hh, hw⟩ := hs.agrees
  have hcurrent' : h.current = some a := by rw [← hcurrent, ← hw]; rfl
  obtain ⟨id, hopen⟩ := hh.exists_openRule_eq hcurrent'
  obtain ⟨r, hrule, hr⟩ := hh.rule?_of_openRule hcurrent' hopen
  exact ⟨h, id, r, hh, hw, hcurrent', hopen, hrule, hr⟩

/-- A symbol is added to the open alternative. -/
theorem symbol (hs : Stands w .ruleBody s) {a : Alternative} (hcurrent : w.current = some a)
    (hname : Name.isSymbol t.text = true) :
    Stands { w with
        mentions := w.mentions ++ [t.text]
        current := some { a with symbols := a.symbols ++ [t.text] } } .ruleBody (consume t s) := by
  obtain ⟨h, id, r, hh, hw, -, hopen, hrule, hr⟩ := hs.exists_rule hcurrent
  -- none of the characters that mean something else begins a symbol
  have hcode : t.first ≠ '{' := Token.first_ne_of_isSymbol hname (by decide) (by decide)
  have hbar : t.is '|' = false :=
    Token.is_eq_false_of_first (Token.first_ne_of_isSymbol hname (by decide) (by decide))
  have hmark : t.is '%' = false :=
    Token.is_eq_false_of_first (Token.first_ne_of_isSymbol hname (by decide) (by decide))
  have hsemicolon : t.is ';' = false :=
    Token.is_eq_false_of_first (Token.first_ne_of_isSymbol hname (by decide) (by decide))
  have hreact : react t s = .done (appendSymbol id t.text s) := by
    simp only [react, hs.phase, reactRuleBody, hopen, hbar, hcode, hmark, hsemicolon, hname,
      if_true, if_false, Bool.false_eq_true]
  refine hs.step hreact hs.phase rfl fun h hw => ?_
  have hcurrent' : h.current = some a := by rw [← hcurrent, ← hw]; rfl
  simp only [History.observe, History.observeAlternative, hcurrent', hbar, hsemicolon, hcode, hname,
    if_true, if_false, Bool.false_eq_true, Bool.and_self, ← hw]
  rfl

/-- A mark in an alternative announces `%prec`. -/
theorem precMark (hs : Stands w .ruleBody s) {a : Alternative} (hcurrent : w.current = some a)
    (ht : t.text = "%") : Stands w .precKeyword (consume t s) := by
  obtain ⟨h, id, r, hh, hw, -, hopen, hrule, hr⟩ := hs.exists_rule hcurrent
  have hmark := Token.is_percent ht
  have hcode : t.first ≠ '{' := by
    rw [Token.first_eq_of_is hmark]
    decide
  have hbar : t.is '|' = false := Token.is_eq_false_of_is hmark (by decide)
  have hsemicolon : t.is ';' = false := Token.is_eq_false_of_is hmark (by decide)
  have hname : Name.isSymbol t.text = false := Token.isSymbol_eq_false_of_is hmark (by decide)
  have hreact : react t s = .done (s.goto .precKeyword) := by
    simp only [react, hs.phase, reactRuleBody, hopen, hbar, hcode, hmark, if_true, if_false,
      Bool.false_eq_true]
  refine hs.step hreact rfl rfl fun h hw => ?_
  have hcurrent' : h.current = some a := by rw [← hcurrent, ← hw]; rfl
  simp only [History.observe, History.observeAlternative, hcurrent', hbar, hsemicolon, hcode,
    hname, if_false, Bool.false_eq_true, Bool.and_false, hw]

/-- The keyword `%prec` announces a symbol. -/
theorem precKeyword (hs : Stands w .precKeyword s)
    (hword : Keyword.ofWord? t.text = some .prec) : Stands w .precSymbol (consume t s) := by
  have hreact : react t s = .done (s.goto .precSymbol) := by
    simp only [react, hs.phase, reactPrecKeyword, hword, if_true]
  exact hs.step hreact rfl rfl fun h hw => hw

/-- A symbol behind `%prec` gives the open alternative its precedence. -/
theorem precSymbol (hs : Stands w .precSymbol s) {a : Alternative} (hcurrent : w.current = some a)
    (hknown : t.text ∈ w.mentions) :
    Stands { w with current := some { a with prec := some t.text } } .afterPrec (consume t s) := by
  obtain ⟨h, id, r, hh, hw, -, hopen, hrule, hr⟩ := hs.exists_rule hcurrent
  -- what was mentioned is in the table
  have hmem : t.text ∈ s.grammar.table.names := by
    rw [hh.names, History.mem_names]
    rw [← hw] at hknown
    exact hknown
  obtain ⟨symbol, hfind⟩ :=
    Option.isSome_iff_exists.mp (SymbolTable.find?_isSome_iff.mpr hmem)
  -- so the symbol is found, and the open rule gets it
  have hreact : react t s = .done ((s.goto .afterPrec).modifyGrammar
      (·.modifyRule id fun r => { r with precSymbol := some symbol })) := by
    simp only [react, hs.phase, reactPrecSymbol]
    rw [show (s.goto .afterPrec).grammar.table.find? t.text = some symbol from hfind,
      show (s.goto .afterPrec).openRule = some id from hopen]
  refine hs.step hreact rfl rfl fun h hw => ?_
  have hcurrent' : h.current = some a := by rw [← hcurrent, ← hw]; rfl
  have hknown' : t.text ∈ h.mentions := by
    rw [← hw] at hknown
    exact hknown
  simp only [History.observe, History.observePrec, hcurrent', hknown', if_true, ← hw]
  rfl

/-- In front of a code block, a bar or a semicolon it makes no difference whether a precedence was
given. -/
theorem code (hs : Stands w phase s) (hphase : phase = .ruleBody ∨ phase = .afterPrec)
    {a : Alternative} (hcurrent : w.current = some a) (hcode : a.code = none)
    (hfirst : t.first = '{') :
    Stands { w with current := some { a with code := some t.text } } phase (consume t s) := by
  obtain ⟨h, id, r, hh, hw, -, hopen, hrule, hr⟩ := hs.exists_rule hcurrent
  have hbar : t.is '|' = false := Token.is_eq_false_of_first (by rw [hfirst]; decide)
  have hsemicolon : t.is ';' = false := Token.is_eq_false_of_first (by rw [hfirst]; decide)
  -- the rule has no code yet, since the alternative has none
  have hrcode : r.code = none := by
    have hmap := hr.code
    rw [hcode, Option.map_eq_none_iff] at hmap
    exact hmap
  have hattach : attachCode id t s =
      s.modifyGrammar (·.modifyRule id fun r => { r with code := some ⟨t.text, t.line⟩ }) := by
    simp only [attachCode, hrule, hrcode]
    rfl
  have hreact : react t s = .done (attachCode id t s) := by
    -- the two phases react alike
    rcases hphase with rfl | rfl
    · simp only [react, hs.phase, reactRuleBody, hopen, hbar, hfirst, if_true, if_false,
        Bool.false_eq_true]
    · simp only [react, hs.phase, reactAfterPrec, hopen, hfirst, if_true]
  rw [hattach] at hreact
  refine hs.step hreact hs.phase rfl fun h hw => ?_
  have hcurrent' : h.current = some a := by rw [← hcurrent, ← hw]; rfl
  rcases hphase with rfl | rfl
  · simp only [History.observe, History.observeAlternative, hcurrent', hbar, hsemicolon, hfirst,
      hcode, if_true, if_false, Bool.false_eq_true, ← hw]
    rfl
  · simp only [History.observe, History.observeAlternative, hcurrent', hbar, hsemicolon, hfirst,
      hcode, if_true, if_false, Bool.false_eq_true, ← hw]
    rfl

end Stands

/-! ## Ends of alternatives -/

/-- No empty alternative of the left-hand side was closed before. -/
def Record.Fresh (w : Record) (lhs : String) : Prop :=
  ∀ c ∈ w.closings, c.1.lhs = lhs → c.1.symbols ≠ []

/-- No closed alternative of a fresh left-hand side is empty. -/
theorem symbols_ne_nil_of_fresh {h : History} {lhs : String} (hfresh : h.record.Fresh lhs)
    {c : Closed} (hc : c ∈ h.closed) (hlhs : c.alternative.lhs = lhs) :
    c.alternative.symbols ≠ [] :=
  hfresh (c.alternative, c.byBar) (List.mem_map_of_mem hc) hlhs

/-- No bar flagged the left-hand side. -/
theorem isNullable_eq_false_of_fresh {h : History} {s : State} {a : Alternative} {r : Rule}
    (hh : Agrees h s) (hr : Matches h.names r a) (hfresh : h.record.Fresh a.lhs) :
    s.grammar.table.isNullable r.lhs = false := by
  rw [Bool.eq_false_iff]
  intro hflag
  -- a flag comes from a closed alternative that is empty
  obtain ⟨x, hx, hnullable⟩ := (Option.any_eq_true _ _).mp hflag
  obtain ⟨c, hc, -, hempty, hlhs⟩ := (hh.nullable_iff (List.mem_of_getElem? hx)).mp hnullable
  have hname : a.lhs = x.name := by
    have hnumber := hr.lhs
    rw [← hh.names, Numbers, SymbolTable.names_getElem?, hx] at hnumber
    exact (Option.some_inj.mp hnumber).symm
  exact symbols_ne_nil_of_fresh hfresh hc (hlhs.trans hname.symm) hempty

/-- No rule that was kept for the left-hand side is empty. -/
theorem isEmpty_rhs_eq_false_of_fresh {h : History} {a : Alternative} {r rule : Rule}
    {rules : List Rule} (hkept : List.Forall₂ (Matches h.names) rules h.kept)
    (hrule : rule ∈ rules) (hr : Matches h.names r a) (hlhs : rule.lhs = r.lhs)
    (hfresh : h.record.Fresh a.lhs) : rule.rhs.isEmpty = false := by
  obtain ⟨a', ha', hra'⟩ := exists_of_mem_left hkept hrule
  obtain ⟨c, hc, rfl⟩ := List.mem_map.mp ha'
  have hname : c.alternative.lhs = a.lhs := by
    have hnumber := hra'.lhs
    rw [hlhs, Numbers, hr.lhs] at hnumber
    exact (Option.some_inj.mp hnumber).symm
  rw [hra'.isEmpty_rhs, List.isEmpty_eq_false_iff]
  exact symbols_ne_nil_of_fresh hfresh (List.mem_filter.mp hc).1 hname

/-- The first empty alternative of a left-hand side is accepted. -/
theorem checkEmpty_eq_self {h : History} {s s' : State} {a : Alternative} {id : RuleId} {r : Rule}
    (hh : Agrees h s) (hcurrent : h.current = some a) (hopen : s.openRule = some id)
    (hrule : s.grammar.rule? id = some r) (hfresh : h.record.Fresh a.lhs)
    (hgrammar : s'.grammar = s.grammar) (line : Nat) : checkEmpty id r.lhs line s' = s' := by
  -- the open rule is the last one, and those in front of it are kept
  obtain ⟨rules, r', hrules, hopen', hkept, hr⟩ := hh.exists_openRule hcurrent
  have hid : id = rules.length := Option.some_inj.mp (hopen.symm.trans hopen')
  have hrr' : r = r' := by
    rw [Grammar.rule?, hrules, hid, List.getElem?_concat_length] at hrule
    exact (Option.some_inj.mp hrule).symm
  subst hrr'
  -- no other empty rule of this left-hand side is there
  have hanother : (s.grammar.rules.zipIdx.any fun p =>
      p.1.lhs = r.lhs && p.2 ≠ id && p.1.rhs.isEmpty) = false := by
    rw [List.any_eq_false]
    rintro ⟨rule, other⟩ hmem hother
    simp only [Bool.and_eq_true, decide_eq_true_eq] at hother
    obtain ⟨⟨hlhs, hne⟩, hempty⟩ := hother
    -- another rule than the open one was kept
    have hrule' : rule ∈ rules := by
      have hget := List.mem_zipIdx_iff_getElem?.mp hmem
      rw [hrules] at hget
      obtain ⟨hlt, -⟩ := List.getElem?_eq_some_iff.mp hget
      rw [List.length_append, List.length_singleton] at hlt
      rw [List.getElem?_append_left (by rw [hid] at hne; omega)] at hget
      exact List.mem_of_getElem? hget
    rw [isEmpty_rhs_eq_false_of_fresh hkept hrule' hr hlhs hfresh] at hempty
    contradiction
  unfold checkEmpty
  rw [hgrammar]
  refine if_neg ?_
  rw [Bool.not_eq_true, Bool.or_eq_false_iff]
  exact ⟨isNullable_eq_false_of_fresh hh hr hfresh, hanother⟩

namespace Stands

variable {w : Record} {phase : Phase} {s : State} {t : Token}

/-- A bar closes the open alternative and opens another one of the same left-hand side. -/
theorem bar (hs : Stands w phase s) (hphase : phase = .ruleBody ∨ phase = .afterPrec)
    {a : Alternative} (hcurrent : w.current = some a) (ht : t.text = "|")
    (hfresh : a.symbols = [] → w.Fresh a.lhs) :
    Stands { w with closings := w.closings ++ [(a, true)], current := some { lhs := a.lhs } }
      .ruleBody (consume t s) := by
  obtain ⟨h, id, r, hh, hw, hcurrent', hopen, hrule, hr⟩ := hs.exists_rule hcurrent
  have hbar : t.is '|' = true := Token.is_of_text (by rw [ht]; rfl)
  have hreact := react_of_bar (hs.phase.symm ▸ hphase) hopen hbar
  refine hs.step hreact rfl ?_ fun h hw => ?_
  · -- an empty alternative is the first one, so the check reports nothing
    refine (errors_newAlternative hrule t.line).trans ?_
    split
    · next hempty =>
      rw [hr.isEmpty_rhs, List.isEmpty_iff] at hempty
      rw [checkEmpty_eq_self hh hcurrent' hopen hrule (hw ▸ hfresh hempty) rfl]
    · rfl
  · have hcurrent' : h.current = some a := by rw [← hcurrent, ← hw]; rfl
    rw [observe_of_bar hphase hcurrent' hbar, ← hw]
    simp [History.record, History.close, History.openAt, Closed.byBar, hbar]

/-- A semicolon closes the open alternative. -/
theorem semicolon (hs : Stands w phase s) (hphase : phase = .ruleBody ∨ phase = .afterPrec)
    {a : Alternative} (hcurrent : w.current = some a) (ht : t.text = ";")
    (hfresh : a.symbols = [] → w.Fresh a.lhs) :
    Stands { w with closings := w.closings ++ [(a, false)], current := none }
      .ruleHead (consume t s) := by
  obtain ⟨h, id, r, hh, hw, hcurrent', hopen, hrule, hr⟩ := hs.exists_rule hcurrent
  have hsemicolon : t.is ';' = true := Token.is_of_text (by rw [ht]; rfl)
  have hbar : t.is '|' = false := Token.is_eq_false_of_is hsemicolon (by decide)
  have hreact := react_of_semicolon (hs.phase.symm ▸ hphase) hopen hsemicolon
  refine hs.step hreact rfl ?_ fun h hw => ?_
  · -- like a bar, a semicolon reports at most a repeated empty alternative
    rw [errors_endRule hrule]
    split
    · next hempty =>
      rw [hr.isEmpty_rhs, List.isEmpty_iff] at hempty
      rw [checkEmpty_eq_self hh hcurrent' hopen hrule (hw ▸ hfresh hempty) rfl]
    · rfl
  · have hcurrent' : h.current = some a := by rw [← hcurrent, ← hw]; rfl
    rw [observe_of_semicolon hphase hcurrent' hsemicolon, ← hw]
    simp [History.record, History.close, Closed.byBar, hbar]

/-! ## Behind the rules -/

/-- The rules tell the alternatives that the record keeps, and last the open one. -/
theorem map_alternative (hs : Stands w phase s) :
    s.grammar.rules.map s.grammar.alternative = w.kept ++ w.current.toList := by
  obtain ⟨h, hh, rfl⟩ := hs.agrees
  rw [hh.map_alternative, History.kept_record]
  rfl

/-- Outside of rules no alternative is being read. -/
theorem current_eq_none (hs : Stands w phase s) (hphase : phase.inRule = false) :
    w.current = none := by
  obtain ⟨h, hh, rfl⟩ := hs.agrees
  exact hh.current_eq_none (by rw [hs.phase, hphase])

/-- Between rules there is a rule if and only if an alternative was kept. -/
theorem rules_eq_nil_iff (hs : Stands w phase s) (hphase : phase.inRule = false) :
    s.grammar.rules = [] ↔ w.kept = [] := by
  have hrules := hs.map_alternative
  rw [hs.current_eq_none hphase, Option.toList_none, List.append_nil] at hrules
  rw [← hrules, List.map_eq_nil_iff]

/-- A mark behind at least one rule announces the end of the rules. -/
theorem trailerMark (hs : Stands w .ruleHead s) (hkept : w.kept ≠ []) (ht : t.text = "%") :
    Stands w .trailerMark (consume t s) := by
  have hmark := Token.is_percent ht
  have hname := Token.isNonterminal_eq_false_of_is hmark (by decide)
  have hrules : s.grammar.rules.isEmpty = false :=
    List.isEmpty_eq_false_iff.mpr (mt (hs.rules_eq_nil_iff rfl).mp hkept)
  have hreact : react t s = .done (s.goto .trailerMark) := by
    simp only [react, hs.phase, reactRuleHead, hmark, hrules, if_true, if_false, Bool.false_eq_true]
  refine hs.step hreact rfl rfl fun h hw => ?_
  simp only [History.observe, History.observeHead, hname, if_false, Bool.false_eq_true, hw]

/-- The second mark ends the rules. -/
theorem trailer (hs : Stands w .trailerMark s) (ht : t.text = "%") :
    Stands w .trailer (consume t s) := by
  have hmark := Token.is_percent ht
  have hreact : react t s = .done (s.goto .trailer) := by
    simp only [react, hs.phase, reactTrailerMark, hmark, if_true]
  exact hs.step hreact rfl rfl fun h hw => hw

/-- In the trailing code any token may stand. -/
theorem trailing (hs : Stands w .trailer s) (t : Token) : Stands w .trailer (consume t s) := by
  obtain ⟨s', hreact, hphase, herrors⟩ : ∃ s', react t s = .done s' ∧ s'.phase = .trailer ∧
      s'.errors = s.errors := by
    rw [react, hs.phase]
    exact ⟨_, rfl, hs.phase, rfl⟩
  exact hs.step hreact hphase herrors fun h hw => hw

end Stands

end YaccGrammar.Reading
