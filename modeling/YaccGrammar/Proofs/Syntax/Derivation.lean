import YaccGrammar.Proofs.Syntax.Acceptance
import YaccGrammar.Proofs.Syntax.Silence

/-!
# Reading accepts the grammar of tokens

What has been read when steps lead to a phase: complete declarations and rules, and the part of the
next one that the phase tells. Every step adds its token to that. Where a file may end nothing is
left incomplete, so the tokens spell a description.

## Main statements

- `Shape.step`: a step adds its token to the part that is being read.
- `accepts_iff_spelledBy`: reading accepts exactly the lists of tokens that spell a consistent
  description.
-/

namespace YaccGrammar.Reading

variable {w w' : Record} {phase phase' : Phase} {t : Token} {ts us : List Token}

/-! ## Things that occur at most once -/

/-- What does not occur yet may be added. -/
theorem countP_concat_le {α : Type} {p : α → Bool} {l : List α} {a : α} (hl : l.countP p ≤ 1)
    (hfresh : p a = true → ∀ b ∈ l, p b = false) : (l ++ [a]).countP p ≤ 1 := by
  rw [List.countP_append]
  -- only what counts itself can make the count rise
  cases ha : p a with
  | false =>
    rw [List.countP_cons_of_neg (by simp [ha]), List.countP_nil]
    exact hl
  | true =>
    have hzero : l.countP p = 0 :=
      List.countP_eq_zero.mpr fun b hb => Bool.eq_false_iff.mp (hfresh ha b hb)
    rw [hzero, List.countP_cons_of_pos ha, List.countP_nil]

/-- The entries are accepted by their keywords, at most one of them is a start symbol, and no
left-hand side has two empty alternatives. -/
structure Record.Unique (w : Record) : Prop where
  accepted : ∀ e ∈ w.entries, accepts e.keyword e.name = true
  start : w.entries.countP (fun e => e.keyword = .start) ≤ 1
  empty : ∀ lhs, w.closings.countP (isEmptyOf lhs) ≤ 1

/-- At the start nothing occurs twice. -/
theorem Record.unique_initial : Record.Unique {} where
  accepted := nofun
  start := Nat.zero_le 1
  empty := fun _ => Nat.zero_le 1

namespace Record.Unique

/-- An accepted name may be added, a start symbol if there is none yet. -/
theorem name (hw : w.Unique) {e : DeclEntry} (haccepts : accepts e.keyword e.name = true)
    (hstart : e.keyword = .start → DeclEntry.start? w.entries = none) (ms : List String) :
    Unique { w with entries := w.entries ++ [e], mentions := ms } where
  accepted := by
    intro e' he'
    rcases List.mem_append.mp he' with he' | he'
    · exact hw.accepted e' he'
    · rw [List.mem_singleton.mp he']
      exact haccepts
  start := by
    refine countP_concat_le hw.start fun he e' he' => decide_eq_false fun hstart' => ?_
    -- another start declaration would have been accepted, so its name would be known
    have hnone := hstart (of_decide_eq_true he)
    rw [DeclEntry.start?, Option.map_eq_none_iff, List.find?_eq_none] at hnone
    have haccepts' := hw.accepted e' he'
    rw [hstart'] at haccepts'
    exact hnone e' he' (by simp [hstart', show Name.isNonterminal e'.name = true from haccepts'])
  empty := hw.empty

/-- An alternative may be closed, an empty one if there is none yet of its left-hand side. -/
theorem closed (hw : w.Unique) {a : Alternative} (hfresh : a.symbols = [] → w.Fresh a.lhs)
    (followed : Bool) (current : Option Alternative) :
    Unique { w with closings := w.closings ++ [(a, followed)], current } where
  accepted := hw.accepted
  start := hw.start
  empty := by
    intro lhs
    refine countP_concat_le (hw.empty lhs) fun ha c hc => Bool.eq_false_iff.mpr fun hc' => ?_
    simp only [isEmptyOf, Bool.and_eq_true, decide_eq_true_eq, List.isEmpty_iff] at ha hc'
    exact hfresh ha.2 c hc (hc'.1.trans ha.1.symm) hc'.2

end Record.Unique

/-- A step adds nothing that occurs twice. -/
theorem Step.unique (hstep : Step w phase t w' phase') (hw : w.Unique) : w'.Unique := by
  -- only names and ends of alternatives add to what is counted
  induction hstep with
  | untagged _ _ _ _ ih => exact ih
  | name _ ht hstart => exact hw.name ht.accepts hstart _
  | bar _ _ hfresh => exact hw.closed hfresh true _
  | semicolon _ _ hfresh => exact hw.closed hfresh false none
  | _ => exact ⟨hw.accepted, hw.start, hw.empty⟩

/-! ## What has been read -/

/-- The block at the top and some declarations have been read. -/
structure Head (code : String) (ds : List Declaration) (ts : List Token) : Prop where
  spelled : HeadSpelledBy code ds ts
  union : (ds.filterMap Declaration.unionCode).length ≤ 1

/-- The declarations and some rules have been read. -/
structure Body (D : Description) (ts : List Token) : Prop where
  spelled : D.BodySpelledBy ts
  union : D.unions.length ≤ 1
  prec : rulesKnow (D.entries.map DeclEntry.name) D.rules = true
  trailing : D.trailing = none

/-- A rule was begun, and some of its alternatives have been closed by bars. -/
inductive Opened (D : Description) (lhs : String) (bs : List Branch) : List Token → Prop
  | intro {head colon : Token} {ts us : List Token} (hbody : Body D ts) (hhead : head.text = lhs)
      (hlhs : Name.isNonterminal lhs = true) (hcolon : colon.text = ":")
      (hbs : Spelled ClosedBy (bs.map fun b => (b, true)) us)
      (hknown : branchesKnow (D.mentions ++ [lhs]) bs = true) :
      Opened D lhs bs (ts ++ head :: colon :: us)

/-- The names that are known inside an alternative. -/
def knownIn (D : Description) (lhs : String) (bs : List Branch) (b : Branch) : List String :=
  D.mentions ++ [lhs] ++ bs.flatMap Branch.symbols ++ b.symbols

/-- The record inside an alternative, in front of which some were closed by bars. -/
def Record.inside (D : Description) (lhs : String) (bs : List Branch) (b : Branch) : Record :=
  { Record.ofDescription D with
    mentions := knownIn D lhs bs b
    closings := D.closings ++ bs.map fun b => (b.alternative lhs, true)
    current := some (b.alternative lhs) }

/-- What the tokens are when reading has got to a record and a phase. -/
inductive Shape : Record → Phase → List Token → Prop
  | preamble : Shape {} .preamble []
  | importBlock {mark : Token} (hmark : mark.text = "%") : Shape {} .importBlock [mark]
  | declaration {code : String} {ds : List Declaration} {ts : List Token} (h : Head code ds ts) :
      Shape (.ofDeclarations code ds) .declaration ts
  | keyword {code : String} {ds : List Declaration} {mark : Token} {ts : List Token}
      (h : Head code ds ts) (hmark : mark.text = "%") :
      Shape (.ofDeclarations code ds) .keyword (ts ++ [mark])
  | tagOrBlock {code : String} {ds : List Declaration} {k : Keyword} {mark word : Token}
      {ts : List Token} (h : Head code ds ts) (hmark : mark.text = "%")
      (hword : Keyword.ofWord? word.text = some k) (hprec : k ≠ .prec) :
      Shape { Record.ofDeclarations code ds with line := some (k, none) } .tagOrBlock
        (ts ++ [mark, word])
  | declaredNames {code : String} {ds : List Declaration} {k : Keyword} {tag : Option String}
      {ns : List String} {ts us : List Token} (h : Head code ds ts)
      (hd : (Declaration.names k tag ns).SpelledBy us) :
      Shape { Record.ofDeclarations code (ds ++ [.names k tag ns]) with line := some (k, tag) }
        .declaredNames (ts ++ us)
  | ruleHead {D : Description} {ts : List Token} (h : Body D ts) :
      Shape (.ofDescription D) .ruleHead ts
  | colon {D : Description} {head : Token} {ts : List Token} (h : Body D ts)
      (hlhs : Name.isNonterminal head.text = true) :
      Shape (.inside D head.text [] { symbols := [] }) .colon (ts ++ [head])
  | ruleBody {D : Description} {lhs : String} {bs : List Branch} {b : Branch} {ts us : List Token}
      (h : Opened D lhs bs ts) (hb : b.SpelledBy us) (hprec : b.prec = none) :
      Shape (.inside D lhs bs b) .ruleBody (ts ++ us)
  | precKeyword {D : Description} {lhs : String} {bs : List Branch} {b : Branch} {mark : Token}
      {ts us : List Token} (h : Opened D lhs bs ts) (hb : b.SpelledBy us) (hprec : b.prec = none)
      (hmark : mark.text = "%") :
      Shape (.inside D lhs bs b) .precKeyword (ts ++ (us ++ [mark]))
  | precSymbol {D : Description} {lhs : String} {bs : List Branch} {b : Branch}
      {mark word : Token} {ts us : List Token} (h : Opened D lhs bs ts) (hb : b.SpelledBy us)
      (hprec : b.prec = none) (hmark : mark.text = "%")
      (hword : Keyword.ofWord? word.text = some .prec) :
      Shape (.inside D lhs bs b) .precSymbol (ts ++ (us ++ [mark, word]))
  | afterPrec {D : Description} {lhs : String} {bs : List Branch} {b : Branch} {ts us : List Token}
      (h : Opened D lhs bs ts) (hb : b.SpelledBy us)
      (hknown : b.prec.all (knownIn D lhs bs b).contains = true) :
      Shape (.inside D lhs bs b) .afterPrec (ts ++ us)
  | trailerMark {D : Description} {mark : Token} {ts : List Token} (h : Body D ts)
      (hrules : D.rules ≠ []) (hmark : mark.text = "%") :
      Shape (.ofDescription D) .trailerMark (ts ++ [mark])
  | trailer {D : Description} {mark mark' : Token} {ts us : List Token} (h : Body D ts)
      (hrules : D.rules ≠ []) (hmark : mark.text = "%") (hmark' : mark'.text = "%") :
      Shape (.ofDescription D) .trailer (ts ++ mark :: mark' :: us)

/-! ## Records that grow -/

/-- A declaration without names leaves no trace. -/
theorem Record.ofDeclarations_names_nil (code : String) (ds : List Declaration) (k : Keyword)
    (tag : Option String) :
    Record.ofDeclarations code (ds ++ [.names k tag []]) = Record.ofDeclarations code ds := by
  simp [ofDeclarations, Declaration.entries, Declaration.unionCode]

/-- One more name of the last declaration. -/
theorem Record.ofDeclarations_name (code : String) (ds : List Declaration) (k : Keyword)
    (tag : Option String) (ns : List String) (n : String) :
    Record.ofDeclarations code (ds ++ [.names k tag (ns ++ [n])]) =
      { Record.ofDeclarations code (ds ++ [.names k tag ns]) with
        entries := (Record.ofDeclarations code (ds ++ [.names k tag ns])).entries ++ [⟨k, tag, n⟩]
        mentions := (Record.ofDeclarations code (ds ++ [.names k tag ns])).mentions ++ [n] } := by
  simp [ofDeclarations_names]

/-- A description without rules is told by its declarations. -/
theorem Record.ofDescription_nil (code : String) (ds : List Declaration) :
    Record.ofDescription ⟨code, ds, [], none⟩ = Record.ofDeclarations code ds := by
  simp [ofDescription, ofDeclarations, Description.entries, Description.mentions,
    Description.closings, Description.unions]

/-- Where the first alternative begins, only the left-hand side has been added. -/
theorem Record.inside_nil (D : Description) (lhs : String) :
    Record.inside D lhs [] { symbols := [] } =
      { Record.ofDescription D with
        mentions := D.mentions ++ [lhs]
        current := some { lhs } } := by
  simp [inside, knownIn, ofDescription, Branch.alternative]

/-- One more symbol of the alternative. -/
theorem Record.inside_symbol (D : Description) (lhs : String) (bs : List Branch) (b : Branch)
    (n : String) :
    Record.inside D lhs bs { b with symbols := b.symbols ++ [n] } =
      { Record.inside D lhs bs b with
        mentions := knownIn D lhs bs b ++ [n]
        current := some { b.alternative lhs with symbols := b.symbols ++ [n] } } := by
  simp [inside, knownIn, Branch.alternative]

/-- An alternative that is closed by a bar, and the next one opened. -/
theorem Record.inside_bar (D : Description) (lhs : String) (bs : List Branch) (b : Branch) :
    Record.inside D lhs (bs ++ [b]) { symbols := [] } =
      { Record.inside D lhs bs b with
        closings := D.closings ++ (bs.map fun b => (b.alternative lhs, true)) ++
          [(b.alternative lhs, true)]
        current := some { lhs } } := by
  simp [inside, knownIn, Branch.alternative]

/-- An alternative that is closed by a semicolon completes its rule. -/
theorem Record.ofDescription_addRule (D : Description) (lhs : String) (bs : List Branch)
    (b : Branch) :
    Record.ofDescription (D.addRule ⟨lhs, bs ++ [b]⟩) =
      { Record.inside D lhs bs b with
        closings := D.closings ++ (bs.map fun b => (b.alternative lhs, true)) ++
          [(b.alternative lhs, false)]
        current := none } := by
  simp [inside, knownIn, ofDescription, Description.addRule, Description.entries,
    Description.mentions, Description.closings, Description.unions, RuleGroup.mentions,
    RuleGroup.closings, marked_concat]

/-! ## Parts that grow -/

/-- A further declaration. -/
theorem Head.declare {code : String} {ds : List Declaration} {d : Declaration}
    (h : Head code ds ts) (hd : d.SpelledBy us)
    (hunion : d.unionCode = none ∨ ds.filterMap Declaration.unionCode = []) :
    Head code (ds ++ [d]) (ts ++ us) := by
  obtain ⟨⟨hmark, hblock, hcode, hds⟩, hone⟩ := h
  refine ⟨.intro hmark hblock hcode (hds.concat hd), ?_⟩
  rw [List.filterMap_append]
  -- either the declaration has no code, or none before it has
  rcases hunion with hnone | hnil
  · simpa [hnone] using hone
  · rw [hnil]
    cases hcode : d.unionCode <;> simp [hcode]

/-- The two marks behind the declarations. -/
theorem Head.body {code : String} {ds : List Declaration} (h : Head code ds ts)
    {mark mark' : Token} (hmark : mark.text = "%") (hmark' : mark'.text = "%") :
    Body ⟨code, ds, [], none⟩ (ts ++ [mark, mark']) where
  spelled := .intro h.spelled hmark hmark' .nil
  union := h.union
  prec := rfl
  trailing := rfl

/-- A left-hand side and a colon open a rule. -/
theorem Body.opened {D : Description} (h : Body D ts) {head colon : Token}
    (hlhs : Name.isNonterminal head.text = true) (hcolon : colon.text = ":") :
    Opened D head.text [] (ts ++ [head, colon]) :=
  .intro h rfl hlhs hcolon .nil rfl

/-- One more alternative whose `%prec` symbol is known. -/
theorem branchesKnow_concat {D : Description} {lhs : String} {bs : List Branch} {b : Branch}
    (hbs : branchesKnow (D.mentions ++ [lhs]) bs = true)
    (hb : b.prec.all (knownIn D lhs bs b).contains = true) :
    branchesKnow (D.mentions ++ [lhs]) (bs ++ [b]) = true := by
  rw [branchesKnow_append, hbs, Bool.true_and, branchesKnow, branchesKnow, Bool.and_true]
  exact hb

/-- A bar closes an alternative and opens the next one. -/
theorem Opened.bar {D : Description} {lhs : String} {bs : List Branch} {b : Branch}
    (h : Opened D lhs bs ts) (hb : b.SpelledBy us)
    (hknown : b.prec.all (knownIn D lhs bs b).contains = true) (ht : t.text = "|") :
    Opened D lhs (bs ++ [b]) (ts ++ us ++ [t]) := by
  obtain ⟨hbody, hhead, hlhs, hcolon, hbs, hprec⟩ := h
  rename_i head colon ts vs
  -- the alternative joins those that were closed by bars
  have hbs' : Spelled ClosedBy ((bs ++ [b]).map fun b => (b, true)) (vs ++ (us ++ [t])) := by
    rw [List.map_append]
    exact hbs.concat (.intro hb ht)
  have hopened := Opened.intro hbody hhead hlhs hcolon hbs' (branchesKnow_concat hprec hknown)
  simpa using hopened

/-- A further rule whose `%prec` symbols are known. -/
theorem Body.addRule {D : Description} {r : RuleGroup} (h : Body D ts) (hr : r.SpelledBy us)
    (hknown : branchesKnow (D.mentions ++ [r.lhs]) r.branches = true) :
    Body (D.addRule r) (ts ++ us) := by
  obtain ⟨⟨hhead, hmark, hmark', hrules⟩, hunion, hprec, htrailing⟩ := h
  refine ⟨?_, hunion, ?_, htrailing⟩
  · rw [List.append_assoc]
    exact .intro hhead hmark hmark' (hrules.concat hr)
  · show rulesKnow (D.entries.map DeclEntry.name) (D.rules ++ [r]) = true
    rw [rulesKnow_append, hprec, Bool.true_and, rulesKnow, rulesKnow, Bool.and_true]
    exact hknown

/-- A semicolon closes the last alternative and ends the rule. -/
theorem Opened.semicolon {D : Description} {lhs : String} {bs : List Branch} {b : Branch}
    (h : Opened D lhs bs ts) (hb : b.SpelledBy us)
    (hknown : b.prec.all (knownIn D lhs bs b).contains = true) (ht : t.text = ";") :
    Body (D.addRule ⟨lhs, bs ++ [b]⟩) (ts ++ us ++ [t]) := by
  obtain ⟨hbody, rfl, hlhs, hcolon, hbs, hprec⟩ := h
  rename_i head colon ts vs
  -- the last alternative has no bar behind it, which makes the list complete
  have hbs' : Spelled ClosedBy (marked (bs ++ [b])) (vs ++ (us ++ [t])) := by
    rw [marked_concat]
    exact hbs.concat (.intro hb ht)
  have hrule := RuleGroup.SpelledBy.intro hlhs hcolon (List.concat_ne_nil _ _) hbs'
  simpa using hbody.addRule hrule (branchesKnow_concat hprec hknown)

/-! ## Steps -/

/-- What was kept belongs to a rule. -/
theorem rules_ne_nil_of_kept {D : Description} (h : (Record.ofDescription D).kept ≠ []) :
    D.rules ≠ [] := by
  intro hnil
  apply h
  rw [Record.kept, Record.ofDescription, Description.closings, hnil]
  rfl

namespace Shape

/-- In front of a bar or a semicolon stands an alternative. -/
theorem exists_branch (h : Shape w phase ts) (hphase : phase = .ruleBody ∨ phase = .afterPrec) :
    ∃ D lhs bs b us vs, Opened D lhs bs us ∧ b.SpelledBy vs ∧
      b.prec.all (knownIn D lhs bs b).contains = true ∧ w = .inside D lhs bs b ∧
      ts = us ++ vs := by
  rcases hphase with rfl | rfl
  · cases h with
    | ruleBody h hb hprec =>
      exact ⟨_, _, _, _, _, _, h, hb, by rw [hprec]; rfl, rfl, rfl⟩
  · cases h with
    | afterPrec h hb hknown => exact ⟨_, _, _, _, _, _, h, hb, hknown, rfl, rfl⟩

/-- Without a tag the names begin behind the keyword. -/
theorem untagged (h : Shape w .tagOrBlock ts) {k : Keyword} (hline : w.line = some (k, none))
    (hk : k ≠ .union) : Shape w .declaredNames ts := by
  cases h with
  | tagOrBlock h hmark hword hprec =>
    obtain ⟨rfl, -⟩ := Prod.mk.inj (Option.some_inj.mp hline)
    have hd := Declaration.SpelledBy.untagged hmark hword hprec hk (Keyword.names_nil _)
    have hnext := Shape.declaredNames h hd
    rw [List.map_nil, Record.ofDeclarations_names_nil] at hnext
    exact hnext

/-- A step adds its token to what has been read. -/
theorem step (hstep : Step w phase t w' phase') (h : Shape w phase ts) :
    Shape w' phase' (ts ++ [t]) := by
  -- by steps; the phase tells which part the token is added to
  induction hstep with
  | preambleMark ht =>
    cases h
    exact .importBlock ht
  | importBlock ht =>
    cases h with
    | importBlock hmark => exact .declaration ⟨.intro hmark ht rfl .nil, Nat.zero_le 1⟩
  | declarationMark ht =>
    cases h with
    | declaration h => exact .keyword h ht
  | rulesMark ht =>
    cases h with
    | keyword h hmark =>
      have hnext := Shape.ruleHead (h.body hmark ht)
      rw [Record.ofDescription_nil] at hnext
      rw [List.append_assoc]
      exact hnext
  | keyword ht hprec =>
    cases h with
    | keyword h hmark =>
      rw [List.append_assoc]
      exact .tagOrBlock h hmark ht hprec
  | unionBlock hline hunion ht =>
    cases h with
    | tagOrBlock h hmark hword =>
      obtain ⟨rfl, -⟩ := Prod.mk.inj (Option.some_inj.mp hline)
      -- no code was kept, so there was no `%union` before
      have hnil := List.head?_eq_none_iff.mp hunion
      have hnext := Shape.declaration (h.declare (.union hmark hword ht) (Or.inr hnil))
      rw [Record.ofDeclarations_union _ hnil] at hnext
      rw [List.append_assoc]
      exact hnext
  | tag hline hk ht =>
    cases h with
    | tagOrBlock h hmark hword hprec =>
      obtain ⟨rfl, -⟩ := Prod.mk.inj (Option.some_inj.mp hline)
      have hd := Declaration.SpelledBy.tagged hmark hword hprec hk ht (Keyword.names_nil _)
      have hnext := Shape.declaredNames h hd
      rw [List.map_nil, Record.ofDeclarations_names_nil] at hnext
      rw [List.append_assoc]
      exact hnext
  | untagged hline hk ht _ ih => exact ih (h.untagged hline hk)
  | namesMark ht =>
    cases h with
    | declaredNames h hd => exact .keyword (h.declare hd (Or.inl rfl)) ht
  | name hline ht =>
    cases h with
    | declaredNames h hd =>
      obtain ⟨rfl, rfl⟩ := Prod.mk.inj (Option.some_inj.mp hline)
      have hnext := Shape.declaredNames h (Declaration.spelledBy_name hd ht)
      rw [Record.ofDeclarations_name] at hnext
      rw [List.append_assoc]
      exact hnext
  | head ht =>
    cases h with
    | ruleHead h =>
      have hnext := Shape.colon h ht
      rw [Record.inside_nil] at hnext
      exact hnext
  | colon ht =>
    cases h with
    | colon h hlhs =>
      have hnext := Shape.ruleBody (h.opened hlhs ht) Branch.spelledBy_nil rfl
      rw [List.append_nil] at hnext
      rw [List.append_assoc]
      exact hnext
  | symbol ha ht =>
    cases h with
    | ruleBody h hb hprec =>
      obtain rfl := Option.some_inj.mp ha
      have hnext := Shape.ruleBody h (Branch.spelledBy_symbol hb hprec ht) hprec
      rw [Record.inside_symbol] at hnext
      rw [List.append_assoc]
      exact hnext
  | precMark _ ht =>
    cases h with
    | ruleBody h hb hprec =>
      rw [List.append_assoc]
      exact .precKeyword h hb hprec ht
  | precKeyword ht =>
    cases h with
    | precKeyword h hb hprec hmark =>
      rw [List.append_assoc, List.append_assoc]
      exact .precSymbol h hb hprec hmark ht
  | precSymbol ha ht =>
    cases h with
    | precSymbol h hb hprec hmark hword =>
      obtain rfl := Option.some_inj.mp ha
      rw [List.append_assoc]
      exact .afterPrec h (Branch.spelledBy_prec hb hprec hmark hword _)
        (List.contains_iff_mem.mpr ht)
  | code hphase ha hcode ht =>
    rcases hphase with rfl | rfl
    · cases h with
      | ruleBody h hb hprec =>
        obtain rfl := Option.some_inj.mp ha
        rw [List.append_assoc]
        exact .ruleBody h (Branch.spelledBy_code hb hcode ht) hprec
    · cases h with
      | afterPrec h hb hknown =>
        obtain rfl := Option.some_inj.mp ha
        rw [List.append_assoc]
        exact .afterPrec h (Branch.spelledBy_code hb hcode ht) hknown
  -- behind the bar the next alternative begins, so far without a token
  | bar hphase ha _ ht =>
    obtain ⟨D, lhs, bs, b, us, vs, hopened, hb, hknown, rfl, rfl⟩ := h.exists_branch hphase
    obtain rfl := Option.some_inj.mp ha
    have hnext := Shape.ruleBody (hopened.bar hb hknown ht) Branch.spelledBy_nil rfl
    rw [List.append_nil, Record.inside_bar] at hnext
    exact hnext
  | semicolon hphase ha _ ht =>
    obtain ⟨D, lhs, bs, b, us, vs, hopened, hb, hknown, rfl, rfl⟩ := h.exists_branch hphase
    obtain rfl := Option.some_inj.mp ha
    have hnext := Shape.ruleHead (hopened.semicolon hb hknown ht)
    rw [Record.ofDescription_addRule] at hnext
    exact hnext
  | trailerMark hkept ht =>
    cases h with
    | ruleHead h => exact .trailerMark h (rules_ne_nil_of_kept hkept) ht
  | trailer ht =>
    cases h with
    | trailerMark h hrules hmark =>
      rw [List.append_assoc]
      exact .trailer h hrules hmark ht
  -- in the trailing code any token is one more of it
  | trailing =>
    cases h with
    | trailer h hrules hmark hmark' =>
      rw [List.append_assoc]
      exact .trailer h hrules hmark hmark'

/-- A path of steps adds its tokens to what has been read. -/
theorem steps (hsteps : Steps w phase us w' phase') (h : Shape w phase ts) :
    Shape w' phase' (ts ++ us) := by
  induction hsteps generalizing ts with
  | nil =>
    rw [List.append_nil]
    exact h
  | cons hstep _ ih =>
    have hnext := ih (h.step hstep)
    rw [List.append_assoc] at hnext
    exact hnext

end Shape

/-- A path of steps adds nothing that occurs twice. -/
theorem Steps.unique (hsteps : Steps w phase ts w' phase') (hw : w.Unique) : w'.Unique := by
  induction hsteps with
  | nil => exact hw
  | cons hstep _ ih => exact ih (hstep.unique hw)

/-! ## The language of reading -/

/-- The description is complete and nothing in it occurs more often than it may. -/
theorem Body.consistent {D : Description} (h : Body D ts) (hrules : D.rules ≠ [])
    (hw : (Record.ofDescription D).Unique) : D.Consistent where
  union := h.union
  start := hw.start
  rules := hrules
  prec := h.prec
  empty := fun r _ => hw.empty r.lhs

/-- Where a file may end, a description has been read. -/
theorem Shape.exists_spelledBy (h : Shape w phase ts) (hcomplete : w.Complete phase)
    (hw : w.Unique) : ∃ D : Description, D.Consistent ∧ D.SpelledBy ts := by
  -- behind the rules there is no trailing code; in it, all further tokens belong to it
  rcases hcomplete with ⟨rfl, hkept⟩ | rfl
  · cases h with
    | @ruleHead D _ h =>
      exact ⟨D, h.consistent (rules_ne_nil_of_kept hkept) hw, .body h.spelled h.trailing⟩
  · cases h with
    | @trailer D _ _ _ us h hrules hmark hmark' =>
      have hD := h.consistent hrules hw
      obtain ⟨⟨hhead, hbegin, hbegin', hspelled⟩, -⟩ := h
      -- the trailing code belongs to no part that the conditions look at
      refine ⟨{ D with trailing := some (String.join (us.map Token.text)) },
        ⟨hD.union, hD.start, hD.rules, hD.prec, hD.empty⟩, ?_⟩
      exact .trailing (.intro hhead hbegin hbegin' hspelled) hmark hmark' rfl

/-- Reading accepts exactly the lists of tokens that spell a consistent description: it leaves no
diagnostic and gets to where a file may end. -/
theorem accepts_iff_spelledBy (file : String) (ts : List Token) :
    ((consumeAll ts (.initial file)).errors = [] ∧
      (consumeAll ts (.initial file)).isComplete = true) ↔
    ∃ D : Description, D.Consistent ∧ D.SpelledBy ts := by
  have hinitial := stands_initial file
  constructor
  · rintro ⟨herrors, hcomplete⟩
    obtain ⟨w, phase, hsteps⟩ := hinitial.exists_steps Record.fits_initial herrors
    -- the steps that were made tell the shape of the tokens
    have hshape := Shape.steps hsteps .preamble
    exact hshape.exists_spelledBy ((hinitial.of_steps hsteps).isComplete_iff.mp hcomplete)
      (hsteps.unique Record.unique_initial)
  · -- the other way round, the description tells the steps that are made
    rintro ⟨D, hD, hts⟩
    obtain ⟨phase, hsteps, hcomplete⟩ := steps_of_spelledBy hD hts
    have hstands := hinitial.of_steps hsteps
    exact ⟨hstands.errors, hstands.isComplete_iff.mpr hcomplete⟩

end YaccGrammar.Reading
