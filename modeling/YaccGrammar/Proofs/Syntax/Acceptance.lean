import YaccGrammar.Proofs.Syntax.Step

/-!
# Steps along the grammar

Tokens that spell a consistent description have a path of steps, part by part: the names of a
declaration, the declarations, the tokens of an alternative, the alternatives of a rule, the rules.
Every part adds to the record what the description says there.

## Main statements

- `Awaits.declarations`, `Steps.rules`: the two halves of a description.
- `steps_of_body`: all of it up to the end of the rules.
- `steps_of_spelledBy`: and what may follow the rules.
-/

namespace YaccGrammar.Reading

variable {w w' : Record} {phase phase' : Phase} {ts us : List Token} {k : Keyword}
  {tag : Option String}

/-! ## Things that occur at most once -/

/-- What occurs at most once does not occur in front of an occurrence. -/
theorem eq_false_of_countP_le_one {α : Type} {p : α → Bool} {l m : List α} {a b : α}
    (h : (l ++ a :: m).countP p ≤ 1) (ha : p a = true) (hb : b ∈ l) : p b = false := by
  rw [List.countP_append, List.countP_cons_of_pos ha] at h
  have hzero : l.countP p = 0 := by omega
  exact Bool.eq_false_iff.mpr (List.countP_eq_zero.mp hzero b hb)

/-- In front of the only start declaration no start symbol was accepted. -/
theorem start?_eq_none_of_countP {es es' : List DeclEntry} {e : DeclEntry}
    (h : (es ++ e :: es').countP (fun e => e.keyword = .start) ≤ 1) (he : e.keyword = .start) :
    DeclEntry.start? es = none := by
  rw [DeclEntry.start?, Option.map_eq_none_iff, List.find?_eq_none]
  intro e' he'
  have hother := eq_false_of_countP_le_one h (decide_eq_true he) he'
  simp [of_decide_eq_false hother]

/-- In front of the only empty alternative of a left-hand side there is no other one. -/
theorem Record.fresh_of_countP {a : Alternative} {followed : Bool}
    {cs : List (Alternative × Bool)}
    (hempty : (w.closings ++ (a, followed) :: cs).countP (isEmptyOf a.lhs) ≤ 1)
    (ha : a.symbols = []) : w.Fresh a.lhs := by
  intro c hc hlhs hnil
  have hp : isEmptyOf a.lhs (a, followed) = true := by simp [isEmptyOf, ha]
  have hfalse := eq_false_of_countP_le_one hempty hp hc
  simp [isEmptyOf, hlhs, hnil] at hfalse

/-! ## Declarations -/

/-- A `%` begins the next declaration or ends the declarations. -/
def Awaits (w : Record) (phase : Phase) (w' : Record) : Prop :=
  ∀ t : Token, t.text = "%" → Step w phase t w' .keyword

/-- The names of a declaration, read one after the other. -/
theorem Steps.names (hline : w.line = some (k, tag)) (hnames : ∀ t ∈ ts, k.Names t)
    (hstart : (w.entries ++ (ts.map Token.text).map (DeclEntry.mk k tag)).countP
      (fun e => e.keyword = .start) ≤ 1) :
    Steps w .declaredNames ts
      { w with
        entries := w.entries ++ (ts.map Token.text).map (DeclEntry.mk k tag)
        mentions := w.mentions ++ ts.map Token.text } .declaredNames := by
  induction ts generalizing w with
  | nil =>
    rw [List.map_nil, List.map_nil, List.append_nil, List.append_nil]
    exact .nil
  | cons t ts ih =>
    -- the first name is read, and the induction goes on with one more entry
    rw [List.map_cons, List.map_cons] at hstart
    have hname := Step.name hline (hnames t List.mem_cons_self)
      fun hk => start?_eq_none_of_countP hstart hk
    have hrest := ih (w := { w with
        entries := w.entries ++ [⟨k, tag, t.text⟩]
        mentions := w.mentions ++ [t.text] }) hline
      (fun t ht => hnames t (List.mem_cons_of_mem _ ht)) (by rwa [List.append_assoc])
    -- the entries that were added join those from before
    rw [List.append_assoc, List.append_assoc] at hrest
    exact .cons hname hrest

/-- Among the names of a declaration, a `%` ends it. -/
theorem awaits_declaredNames (w : Record) : Awaits w .declaredNames { w with line := none } :=
  fun _ ht => .namesMark ht

/-- Names without a tag. -/
theorem Steps.untagged (hline : w.line = some (k, none)) (hk : k ≠ .union)
    (hnames : ∀ t ∈ ts, k.Names t) (hsteps : Steps w .declaredNames ts w' .declaredNames) :
    ∃ phase, Steps w .tagOrBlock ts w' phase ∧ Awaits w' phase { w' with line := none } := by
  cases hsteps with
  | nil =>
    -- the `%` stands right behind the keyword
    refine ⟨.tagOrBlock, .nil, fun t ht => .untagged hline hk ?_ (.namesMark ht)⟩
    rw [Token.first_eq_of_is (Token.is_percent ht)]
    decide
  | cons hstep hrest =>
    have hfirst := (hnames _ List.mem_cons_self).tag
    exact ⟨.declaredNames, .cons (.untagged hline hk hfirst hstep) hrest, awaits_declaredNames _⟩

/-- The record when the given declarations have been read. -/
def Record.ofDeclarations (code : String) (ds : List Declaration) : Record where
  entries := ds.flatMap Declaration.entries
  mentions := (ds.flatMap Declaration.entries).map DeclEntry.name
  importCode := some code
  unionCode := (ds.filterMap Declaration.unionCode).head?

/-- A declaration of names adds its entries and mentions its names. -/
theorem Record.ofDeclarations_names (code : String) (ds : List Declaration) (k : Keyword)
    (tag : Option String) (ns : List String) :
    Record.ofDeclarations code (ds ++ [.names k tag ns]) =
      { Record.ofDeclarations code ds with
        entries := ds.flatMap Declaration.entries ++ ns.map (DeclEntry.mk k tag)
        mentions := (ds.flatMap Declaration.entries).map DeclEntry.name ++ ns } := by
  simp [ofDeclarations, Declaration.entries, Declaration.unionCode, Function.comp_def]

/-- The first `%union` counts. -/
theorem Record.ofDeclarations_union (code : String) {ds : List Declaration}
    (hds : ds.filterMap Declaration.unionCode = []) (block : String) :
    Record.ofDeclarations code (ds ++ [.union block]) =
      { Record.ofDeclarations code ds with unionCode := some block } := by
  simp [ofDeclarations, hds, Declaration.entries, Declaration.unionCode]

namespace Awaits

variable {code : String} {ds ds' : List Declaration}

/-- One more declaration. -/
theorem declaration (hw : Awaits w phase (.ofDeclarations code ds)) {d : Declaration}
    (hd : d.SpelledBy ts)
    (hunion : ((ds ++ [d]).filterMap Declaration.unionCode).length ≤ 1)
    (hstart : ((ds ++ [d]).flatMap Declaration.entries).countP (fun e => e.keyword = .start) ≤ 1) :
    ∃ w' phase', Steps w phase ts w' phase' ∧
      Awaits w' phase' (.ofDeclarations code (ds ++ [d])) := by
  cases hd with
  -- mark and keyword, and the names right behind them
  | untagged hmark hword hprec hk hnames =>
    rw [List.flatMap_append, List.flatMap_singleton] at hstart
    rw [Record.ofDeclarations_names]
    have hsteps := Steps.names (w := { Record.ofDeclarations code ds with line := some (_, none) })
      rfl hnames hstart
    obtain ⟨phase', hsteps, hawaits⟩ := Steps.untagged rfl hk hnames hsteps
    exact ⟨_, phase', .cons (hw _ hmark) (.cons (.keyword hword hprec) hsteps), hawaits⟩
  | tagged hmark hword hprec hk htag hnames =>
    rw [List.flatMap_append, List.flatMap_singleton] at hstart
    rw [Record.ofDeclarations_names]
    have hsteps := Steps.names
      (w := { Record.ofDeclarations code ds with line := some (_, some _) }) rfl hnames hstart
    exact ⟨_, _,
      .cons (hw _ hmark) (.cons (.keyword hword hprec) (.cons (.tag rfl hk htag) hsteps)),
      awaits_declaredNames _⟩
  | union hmark hword hblock =>
    -- there is one `%union` at most, and this is one
    have hds : ds.filterMap Declaration.unionCode = [] := by
      rw [List.filterMap_append, List.length_append] at hunion
      exact List.length_eq_zero_iff.mp (Nat.le_zero.mp (Nat.le_of_succ_le_succ hunion))
    rw [Record.ofDeclarations_union code hds]
    have hfirst : (Record.ofDeclarations code ds).unionCode = none := by
      rw [Record.ofDeclarations, hds]
      rfl
    have hblock := Step.unionBlock
      (w := { Record.ofDeclarations code ds with line := some (.union, none) }) rfl hfirst hblock
    exact ⟨_, _, .cons (hw _ hmark) (.cons (.keyword hword (by decide)) hblock.steps),
      fun _ ht => .declarationMark ht⟩

/-- The declarations, when some have been read before. -/
theorem declarations (hw : Awaits w phase (.ofDeclarations code ds))
    (hds : Spelled Declaration.SpelledBy ds' ts)
    (hunion : ((ds ++ ds').filterMap Declaration.unionCode).length ≤ 1)
    (hstart : ((ds ++ ds').flatMap Declaration.entries).countP (fun e => e.keyword = .start) ≤ 1) :
    ∃ w' phase', Steps w phase ts w' phase' ∧
      Awaits w' phase' (.ofDeclarations code (ds ++ ds')) := by
  induction hds generalizing ds w phase with
  | nil =>
    rw [List.append_nil]
    exact ⟨w, phase, .nil, hw⟩
  | @cons d ds' _ _ hd _ ih =>
    -- the declaration moves over to those that have been read
    have hsplit : ds ++ d :: ds' = (ds ++ [d]) ++ ds' := by
      rw [List.append_assoc, List.singleton_append]
    rw [hsplit] at hunion hstart ⊢
    have hunion' : ((ds ++ [d]).filterMap Declaration.unionCode).length ≤ 1 := by
      rw [List.filterMap_append, List.length_append] at hunion
      omega
    have hstart' : ((ds ++ [d]).flatMap Declaration.entries).countP
        (fun e => e.keyword = .start) ≤ 1 := by
      rw [List.flatMap_append, List.countP_append] at hstart
      omega
    obtain ⟨w', phase', hsteps, hw'⟩ := hw.declaration hd hunion' hstart'
    obtain ⟨w'', phase'', hrest, hw''⟩ := ih hw' hunion hstart
    exact ⟨w'', phase'', hsteps.trans hrest, hw''⟩

end Awaits

/-! ## Rules -/

/-- A list of codes with one member at most is split. -/
theorem exists_toList_of_append {α : Type} {l m : List α} {o : Option α} (h : l ++ m = o.toList) :
    ∃ p : Option α, l = p.toList := by
  cases l with
  | nil => exact ⟨none, rfl⟩
  | cons a l =>
    cases o with
    | none => cases h
    | some b =>
      have hl : l ++ m = [] := (List.cons.inj h).2
      rw [(List.append_eq_nil_iff.mp hl).1]
      exact ⟨some a, rfl⟩

/-- Behind a code block no other one is due. -/
theorem eq_none_of_toList_append {α : Type} {o p : Option α} {a : α} {l : List α}
    (h : o.toList ++ a :: l = p.toList) : o = none ∧ p.toList = a :: l := by
  cases o with
  | none => exact ⟨rfl, h.symm⟩
  | some b =>
    cases p with
    | none => cases h
    | some c => exact absurd (List.cons.inj h).2 (by simp)

variable {a : Alternative}

/-- Symbols and code blocks; behind `%prec` only code blocks. -/
theorem Steps.items {code : Option String} (hphase : phase = .ruleBody ∨ phase = .afterPrec)
    (ha : w.current = some a)
    (hitems : ∀ t ∈ ts, t.IsItem) (hcodes : phase = .afterPrec → ∀ t ∈ ts, t.first = '{')
    (hcode : a.code.toList ++ codesOf ts = code.toList) :
    Steps w phase ts
      { w with
        mentions := w.mentions ++ symbolsOf ts
        current := some { a with symbols := a.symbols ++ symbolsOf ts, code } } phase := by
  induction ts generalizing w a with
  | nil =>
    -- no tokens are left, so the code is the one that was there
    obtain rfl : a.code = code := by
      have htoList : a.code.toList = code.toList := (List.append_nil _).symm.trans hcode
      have hhead := congrArg List.head? htoList
      rwa [Option.head?_toList, Option.head?_toList] at hhead
    rw [show symbolsOf [] = [] from rfl, List.append_nil, List.append_nil, ← ha]
    exact .nil
  | cons t ts ih =>
    have hrest := fun u hu => hitems u (List.mem_cons_of_mem t hu)
    have hcodes' := fun hp u hu => hcodes hp u (List.mem_cons_of_mem t hu)
    rw [← List.singleton_append, codesOf_append] at hcode
    rw [← List.singleton_append, symbolsOf_append]
    by_cases hfirst : t.first = '{'
    · -- no other block came before, so this one fills the place
      rw [codesOf_of_code hfirst, List.singleton_append] at hcode
      obtain ⟨hnone, hcode⟩ := eq_none_of_toList_append hcode
      have hsteps := ih (w := { w with current := some { a with code := some t.text } })
        (a := { a with code := some t.text }) rfl hrest hcodes' hcode.symm
      rw [symbolsOf_of_code hfirst, List.nil_append]
      exact .cons (.code hphase ha hnone hfirst) hsteps
    · -- behind `%prec` there are only code blocks
      rw [codesOf_of_symbol hfirst, List.nil_append] at hcode
      obtain rfl : phase = .ruleBody :=
        hphase.resolve_right fun hp => hfirst (hcodes hp t List.mem_cons_self)
      have hsymbol := (hitems t List.mem_cons_self).resolve_right hfirst
      have hsteps := ih (w := { w with
          mentions := w.mentions ++ [t.text]
          current := some { a with symbols := a.symbols ++ [t.text] } })
        (a := { a with symbols := a.symbols ++ [t.text] }) rfl hrest hcodes' hcode
      rw [List.append_assoc, List.append_assoc] at hsteps
      rw [symbolsOf_of_symbol hfirst]
      exact .cons (.symbol ha hsymbol) hsteps

/-- Among code blocks there are no symbols. -/
theorem symbolsOf_of_codes (h : ∀ t ∈ ts, t.first = '{') : symbolsOf ts = [] := by
  rw [symbolsOf, List.map_eq_nil_iff, List.filter_eq_nil_iff]
  exact fun t ht => by simp [h t ht]

/-- An alternative without the mark that closes it. -/
theorem Steps.branch {b : Branch} {lhs : String} (hb : b.SpelledBy ts)
    (ha : w.current = some { lhs })
    (hknown : b.prec.all (w.mentions ++ b.symbols).contains = true) :
    ∃ phase, (phase = .ruleBody ∨ phase = .afterPrec) ∧
      Steps w .ruleBody ts
        { w with
          mentions := w.mentions ++ b.symbols
          current := some (b.alternative lhs) } phase := by
  cases hb with
  | plain hitems hcode =>
    exact ⟨.ruleBody, Or.inl rfl, Steps.items (Or.inl rfl) ha hitems nofun hcode⟩
  | @prec code mark word symbol ts us hitems hmark hword hcodes hcode =>
    -- the block stands in front of `%prec` or behind its symbol
    rw [codesOf_append] at hcode
    obtain ⟨first, hfirst⟩ := exists_toList_of_append hcode
    rw [hfirst] at hcode
    have hsteps := Steps.items (Or.inl rfl) ha hitems nofun hfirst
    have hprec := hsteps.trans (.cons (.precMark rfl hmark) (.cons (.precKeyword hword)
      (Step.precSymbol rfl (by simpa using hknown)).steps))
    have hrest := Steps.items
      (w := { w with
        mentions := w.mentions ++ symbolsOf ts
        current := some { lhs, symbols := symbolsOf ts, code := first, prec := some symbol.text } })
      (Or.inr rfl) rfl (fun t ht => Or.inr (hcodes t ht)) (fun _ => hcodes) hcode
    have hall := hprec.trans hrest
    rw [symbolsOf_of_codes hcodes, List.append_nil, List.append_nil, List.append_assoc] at hall
    exact ⟨.afterPrec, Or.inr rfl, hall⟩

/-- The mark that closes an alternative, be it a bar or a semicolon. -/
theorem Step.closed {followed : Bool} {t : Token} (hphase : phase = .ruleBody ∨ phase = .afterPrec)
    (ha : w.current = some a) (ht : t.text = closingMark followed)
    (hfresh : a.symbols = [] → w.Fresh a.lhs) :
    Step w phase t
      { w with
        closings := w.closings ++ [(a, followed)]
        current := if followed then some { lhs := a.lhs } else none }
      (if followed then .ruleBody else .ruleHead) := by
  cases followed with
  | true => exact .bar hphase ha hfresh ht
  | false => exact .semicolon hphase ha hfresh ht

/-- An alternative with the mark that closes it. -/
theorem Steps.closed {b : Branch} {lhs : String} {followed : Bool}
    (hb : ClosedBy (b, followed) ts) (ha : w.current = some { lhs })
    (hknown : b.prec.all (w.mentions ++ b.symbols).contains = true)
    (hfresh : b.symbols = [] → w.Fresh lhs) :
    Steps w .ruleBody ts
      { w with
        mentions := w.mentions ++ b.symbols
        closings := w.closings ++ [(b.alternative lhs, followed)]
        current := if followed then some { lhs } else none }
      (if followed then .ruleBody else .ruleHead) := by
  obtain ⟨hb, hmark⟩ := hb
  obtain ⟨phase, hphase, hsteps⟩ := Steps.branch hb ha hknown
  exact hsteps.trans (Step.closed hphase rfl hmark hfresh).steps

/-- The alternatives of a rule. -/
theorem Steps.branches {lhs : String} {bs : List Branch} (hne : bs ≠ [])
    (hbs : Spelled ClosedBy (marked bs) ts) (ha : w.current = some { lhs })
    (hknown : branchesKnow w.mentions bs = true)
    (hempty : (w.closings ++ (marked bs).map fun p => (p.1.alternative lhs, p.2)).countP
      (isEmptyOf lhs) ≤ 1) :
    Steps w .ruleBody ts
      { w with
        mentions := w.mentions ++ bs.flatMap Branch.symbols
        closings := w.closings ++ (marked bs).map fun p => (p.1.alternative lhs, p.2)
        current := none } .ruleHead := by
  induction bs generalizing w ts with
  | nil => contradiction
  | cons b bs ih =>
    rw [branchesKnow, Bool.and_eq_true] at hknown
    cases bs with
    | nil =>
      -- a semicolon closes the last alternative
      obtain ⟨⟩ | ⟨hb, ⟨⟩⟩ := hbs
      rw [List.append_nil, List.flatMap_singleton]
      exact Steps.closed hb ha hknown.1 (Record.fresh_of_countP (a := b.alternative lhs) hempty)
    | cons b' bs =>
      -- a bar closes this one and opens the next
      obtain ⟨⟩ | ⟨hb, hbs⟩ := hbs
      rw [marked, List.map_cons] at hempty
      have hclosed := Steps.closed hb ha hknown.1
        (Record.fresh_of_countP (a := b.alternative lhs) hempty)
      have hrest := ih (List.cons_ne_nil _ _) hbs (w := { w with
          mentions := w.mentions ++ b.symbols
          closings := w.closings ++ [(b.alternative lhs, true)]
          current := some { lhs } }) rfl hknown.2 (by rwa [List.append_assoc])
      rw [List.append_assoc, List.append_assoc] at hrest
      exact hclosed.trans hrest

/-- A rule, from its left-hand side to its semicolon. -/
theorem Steps.rule {r : RuleGroup} (hr : r.SpelledBy ts)
    (hknown : branchesKnow (w.mentions ++ [r.lhs]) r.branches = true)
    (hempty : (w.closings ++ r.closings).countP (isEmptyOf r.lhs) ≤ 1) :
    Steps w .ruleHead ts
      { w with
        mentions := w.mentions ++ r.mentions
        closings := w.closings ++ r.closings
        current := none } .ruleHead := by
  obtain ⟨hlhs, hcolon, hne, hbranches⟩ := hr
  rename_i bs lhs colon ts
  have hrest := Steps.branches hne hbranches (w := { w with
      mentions := w.mentions ++ [lhs.text]
      current := some { lhs := lhs.text } }) rfl hknown hempty
  rw [List.append_assoc] at hrest
  exact .cons (.head hlhs) (.cons (.colon hcolon) hrest)

/-- The rules, when some have been read before. -/
theorem Steps.rules {rs : List RuleGroup} (hcurrent : w.current = none)
    (hrs : Spelled RuleGroup.SpelledBy rs ts) (hknown : rulesKnow w.mentions rs = true)
    (hempty : ∀ r ∈ rs,
      (w.closings ++ rs.flatMap RuleGroup.closings).countP (isEmptyOf r.lhs) ≤ 1) :
    Steps w .ruleHead ts
      { w with
        mentions := w.mentions ++ rs.flatMap RuleGroup.mentions
        closings := w.closings ++ rs.flatMap RuleGroup.closings
        current := none } .ruleHead := by
  induction hrs generalizing w with
  | nil =>
    rw [List.flatMap_nil, List.flatMap_nil, List.append_nil, List.append_nil, ← hcurrent]
    exact .nil
  | @cons r rs _ _ hr _ ih =>
    rw [rulesKnow, Bool.and_eq_true] at hknown
    simp only [List.flatMap_cons, ← List.append_assoc, List.forall_mem_cons] at hempty
    -- what is true of all alternatives is true of those of the first rule
    have hempty' : (w.closings ++ r.closings).countP (isEmptyOf r.lhs) ≤ 1 := by
      have hall := hempty.1
      rw [List.countP_append] at hall
      omega
    have hrule := Steps.rule hr hknown.1 hempty'
    have hrest := ih (w := { w with
        mentions := w.mentions ++ r.mentions
        closings := w.closings ++ r.closings
        current := none }) rfl hknown.2 hempty.2
    rw [List.append_assoc, List.append_assoc] at hrest
    exact hrule.trans hrest

/-! ## The whole description -/

/-- The record of a description that has been read. -/
def Record.ofDescription (D : Description) : Record where
  entries := D.entries
  mentions := D.mentions
  closings := D.closings
  importCode := some D.importCode
  unionCode := D.unions.head?

/-- The tokens up to the end of the rules record what the description says. -/
theorem steps_of_body {D : Description} (hD : D.Consistent) (hts : D.BodySpelledBy ts) :
    Steps {} .preamble ts (.ofDescription D) .ruleHead := by
  obtain ⟨⟨hmark, hblock, hcode, hdeclarations⟩, hmark', hmark'', hrules⟩ := hts
  -- behind the block at the top a declaration may begin
  have hawaits : Awaits { importCode := some D.importCode } .declaration
      (.ofDeclarations D.importCode []) := fun _ ht => .declarationMark ht
  obtain ⟨w, phase, hhead, hw⟩ := hawaits.declarations hdeclarations hD.union hD.start
  have hcode' := Step.importBlock (w := {}) hblock
  rw [hcode] at hcode'
  -- the two marks behind the declarations lead to the rules
  have hmarks := Steps.cons (hw _ hmark') (Step.rulesMark hmark'').steps
  have hbody := Steps.rules rfl hrules (w := .ofDeclarations D.importCode D.declarations)
    hD.prec hD.empty
  exact (Steps.cons (.preambleMark hmark) (.cons hcode' hhead)).trans (hmarks.trans hbody)

/-- The last alternative of a rule is kept. -/
theorem kept_ne_nil {D : Description} (hrules : D.rules ≠ [])
    (hbranches : ∀ r ∈ D.rules, r.branches ≠ []) : (Record.ofDescription D).kept ≠ [] := by
  obtain ⟨r, hr⟩ := List.exists_mem_of_ne_nil _ hrules
  obtain ⟨b, hb⟩ := exists_mem_marked (hbranches r hr)
  have hmem : (b.alternative r.lhs, false) ∈ D.closings :=
    List.mem_flatMap.mpr ⟨r, hr, List.mem_map_of_mem hb⟩
  exact List.ne_nil_of_mem (List.mem_map_of_mem (List.mem_filter.mpr ⟨hmem, by simp⟩))

theorem branches_ne_nil_of_body {D : Description} (hts : D.BodySpelledBy ts) :
    ∀ r ∈ D.rules, r.branches ≠ [] := by
  obtain ⟨-, -, -, hrules⟩ := hts
  intro r hr
  obtain ⟨us, ⟨-, -, hne, -⟩⟩ := hrules.exists_of_mem hr
  exact hne

/-- Behind the second `%%` every token is in place. -/
theorem Steps.trailing (w : Record) (ts : List Token) : Steps w .trailer ts w .trailer := by
  induction ts with
  | nil => exact .nil
  | cons t ts ih => exact .cons .trailing ih

/-- The tokens of a description record what it says, and the file may end behind them. -/
theorem steps_of_spelledBy {D : Description} (hD : D.Consistent) (hts : D.SpelledBy ts) :
    ∃ phase, Steps {} .preamble ts (.ofDescription D) phase ∧
      (Record.ofDescription D).Complete phase := by
  cases hts with
  | body hbody =>
    have hkept := kept_ne_nil hD.rules (branches_ne_nil_of_body hbody)
    exact ⟨.ruleHead, steps_of_body hD hbody, Or.inl ⟨rfl, hkept⟩⟩
  | trailing hbody hmark hmark' =>
    have hkept := kept_ne_nil hD.rules (branches_ne_nil_of_body hbody)
    exact ⟨.trailer, (steps_of_body hD hbody).trans
      (.cons (.trailerMark hkept hmark) (.cons (.trailer hmark') (.trailing _ _))), Or.inr rfl⟩

end YaccGrammar.Reading
