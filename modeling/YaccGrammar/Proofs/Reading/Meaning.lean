import YaccGrammar.Proofs.Analysis.Congruence
import YaccGrammar.Proofs.Description.Steps
import YaccGrammar.Proofs.Reading.Layout
import YaccGrammar.Proofs.Reading.WellFormed

/-!
# The meaning of a grammar

An empty alternative is remembered as a flag if a bar closes it, and as a rule if a semicolon does.
Grammars that differ in this mean the same: the checks and the analysis tell them apart in nothing
but the blank rules.

## Main statements

- `Grammar.verify_eq`: the problems depend on the symbols, on the rules that are not blank, and on
  which symbols have rules.
- `Agrees.sameMeaning`: histories with the same alternatives lead to grammars with the same meaning,
  whichever marks closed the alternatives.
-/

namespace YaccGrammar

open Analysis SymbolTable

/-- Grammars that differ only in blank rules and in the flags that stand for them. -/
structure Grammar.SameMeaning (g g' : Grammar) : Prop where
  symbols : g.table.symbols.map Symbol.bare = g'.table.symbols.map Symbol.bare
  rules : g.essentialRules = g'.essentialRules
  problems : ∀ file,
    (g.verify file).map Diagnostic.unplaced = (g'.verify file).map Diagnostic.unplaced
  /-- The analysis finds the same nullable symbols and the same first-sets. -/
  findings : g.analyze.table.symbols.map Symbol.findings =
    g'.analyze.table.symbols.map Symbol.findings
  start : g.analyze.start? = g'.analyze.start?
  analyzedRules : g.analyze.essentialRules = g'.analyze.essentialRules

/-! ## Problems -/

/-- Where a rule of the left-hand side stands below a number, some rule below it is found. -/
theorem lastBelow_ne_none {rules : List Rule} {lhs : SymbolId} {k j : Nat} (hj : j < k)
    (hlhs : (rules[j]?).map Rule.lhs = some lhs) : lastBelow rules lhs k ≠ none := by
  -- on the number of rules that are searched, the last one first
  induction k with
  | zero => exact absurd hj (Nat.not_lt_zero j)
  | succ k ih =>
    rw [lastBelow]
    split
    · exact Option.some_ne_none k
    · next hk =>
      rcases Nat.lt_succ_iff_lt_or_eq.mp hj with hj | rfl
      · exact ih hj
      · exact absurd hlhs hk

/-- A symbol has rules if it is the left-hand side of one. -/
theorem Grammar.Chained.hasRules_iff {g : Grammar} (hg : g.Chained) (id : SymbolId) :
    g.hasRules id = true ↔ id ∈ g.rules.map Rule.lhs := by
  constructor
  · intro hrules
    simp only [hasRules, Bool.and_eq_true] at hrules
    obtain ⟨k, hk⟩ := Option.isSome_iff_exists.mp hrules.2
    obtain ⟨x, hx, hfirst⟩ := Option.bind_eq_some_iff.mp hk
    obtain ⟨r, hr, hlhs⟩ := lhs_of_lastBelow ((hg.first id x hx).symm.trans hfirst)
    exact List.mem_map.mpr ⟨r, List.mem_of_getElem? hr, hlhs⟩
  · intro hmem
    obtain ⟨r, hr, rfl⟩ := List.mem_map.mp hmem
    obtain ⟨x, hx⟩ := exists_get?_of_lt (hg.lhs r hr)
    obtain ⟨k, hk⟩ := List.getElem?_of_mem hr
    have hlt : k < g.rules.length := (List.getElem?_eq_some_iff.mp hk).1
    -- the chain of the symbol begins at the last of its rules, so it is not empty
    have hfirst : x.firstRule ≠ none := by
      rw [hg.first r.lhs x hx]
      exact lastBelow_ne_none hlt (by rw [hk]; rfl)
    have hnonempty : g.rules.isEmpty = false :=
      List.isEmpty_eq_false_iff.mpr (List.ne_nil_of_mem hr)
    rw [hasRules, hnonempty, hx, Option.bind_some, Option.isSome_iff_ne_none.mpr hfirst]
    rfl

namespace Grammar

variable {g g' : Grammar}

/-- Symbols that are alike but for links and flags have the same names. -/
theorem name_eq_of_bare (h : g.table.symbols.map Symbol.bare = g'.table.symbols.map Symbol.bare)
    (id : SymbolId) : g.name id = g'.name id := by
  rw [name, name, SymbolTable.name, SymbolTable.name, ← names_getElem?, ← names_getElem?,
    names_eq_of_bare h]

/-- Which symbols are undefined depends on kinds and on who has rules. -/
theorem isUndefined_eq (h : g.table.symbols.map Symbol.bare = g'.table.symbols.map Symbol.bare)
    (hhas : ∀ id, g.hasRules id = g'.hasRules id) : g.isUndefined = g'.isUndefined := by
  have hany (o : Option Symbol) : o.any Symbol.isTerminal =
      (o.map Symbol.bare).any Symbol.isTerminal := by
    rw [Option.any_map]
    rfl
  funext id
  rw [isUndefined, isUndefined, hany, map_get?_eq h, ← hany, hhas]

/-- Blank rules use no symbol. -/
theorem undefinedUses_eq_of_essentialRules (g : Grammar) : g.unplaced.undefinedUses =
    g.essentialRules.flatMap fun r => (r.rhs.filter g.isUndefined).map fun id => (id, 0) := by
  rw [undefinedUses_unplaced, undefinedUses, List.map_flatMap,
    essentialRules, List.flatMap_map]
  induction g.rules with
  | nil => rfl
  | cons r rules ih =>
    rw [List.flatMap_cons, ih, List.filter_cons]
    -- a blank rule is left out on one side and has no symbols on the other
    cases hblank : r.isBlank with
    | true =>
      have hrhs : r.rhs = [] := by
        simp only [Rule.isBlank, Bool.and_eq_true, List.isEmpty_iff] at hblank
        exact hblank.1.1
      simp [hrhs]
    | false => simp [Rule.essence]

/-- The problems of grammars with the same symbols. -/
theorem verify_eq (hsymbols : g.table.symbols.map Symbol.bare = g'.table.symbols.map Symbol.bare)
    (hrules : g.essentialRules = g'.essentialRules)
    (hhas : ∀ id, g.hasRules id = g'.hasRules id) (hstart : g.start? = g'.start?) (file : String) :
    (g.verify file).map Diagnostic.unplaced = (g'.verify file).map Diagnostic.unplaced := by
  -- the three things that the checks look at
  have hname : g.unplaced.name = g'.unplaced.name := funext (name_eq_of_bare hsymbols)
  have huses : g.unplaced.undefinedUses = g'.unplaced.undefinedUses := by
    rw [undefinedUses_eq_of_essentialRules, undefinedUses_eq_of_essentialRules, hrules,
      isUndefined_eq hsymbols hhas]
  have hundefined : g.undefinedStart file = g'.undefinedStart file := by
    rw [undefinedStart, undefinedStart, hstart]
    cases g'.start? with
    | none => rfl
    | some id =>
      dsimp only
      rw [hhas, name_eq_of_bare hsymbols]
  rw [unplaced_verify, unplaced_verify, verify, verify,
    undefinedNonterminals, undefinedNonterminals, huses, hname,
    undefinedStart_unplaced, undefinedStart_unplaced, hundefined]

end Grammar

namespace Reading

/-! ## Rules of alternatives -/

/-- What the rule of an alternative says. Symbols are numbered as their names are. -/
def Alternative.rule (names : List String) (a : Alternative) : Rule where
  lhs := names.idxOf a.lhs
  line := 0
  rhs := a.symbols.map names.idxOf
  code := a.code.map fun code => ⟨code, 0⟩
  precSymbol := a.prec.map names.idxOf

/-- The rule of an alternative is blank if the alternative is. -/
theorem Alternative.isBlank_rule (names : List String) (a : Alternative) :
    (a.rule names).isBlank = a.isBlank := by
  simp [rule, isBlank, Rule.isBlank]

/-- Where no name is repeated, the number of a name is its position. -/
theorem Numbers.eq_idxOf {names : List String} (hnodup : names.Nodup) {id : SymbolId} {n : String}
    (hid : Numbers names id n) : id = names.idxOf n := by
  have hfound := List.getElem?_idxOf (List.mem_of_getElem? hid)
  exact (List.getElem?_inj (List.getElem?_eq_some_iff.mp hid).1 hnodup).mp (hid.trans hfound.symm)

/-- An optional number is the position of the name that it stands for. -/
theorem eq_map_of_rel {names : List String} (hnodup : names.Nodup) {o : Option SymbolId}
    {o' : Option String} (h : Option.Rel (Numbers names) o o') : o = o'.map names.idxOf := by
  cases h with
  | none => rfl
  | some hid => exact congrArg some (Numbers.eq_idxOf hnodup hid)

/-- A rule says what its alternative says. -/
theorem Matches.essence_eq {names : List String} (hnodup : names.Nodup) {r : Rule} {a : Alternative}
    (hr : Matches names r a) : r.essence = a.rule names := by
  have hrhs : r.rhs = a.symbols.map names.idxOf := by
    have heq := hr.rhs.imp fun id n hid => Numbers.eq_idxOf hnodup hid
    rwa [← List.forall₂_map_right_iff, List.forall₂_eq_eq_eq] at heq
  have hcode : (r.code.map fun b => { b with line := 0 }) =
      a.code.map fun code => (⟨code, 0⟩ : CodeBlock) := by
    rw [← hr.code, Option.map_map]
    rfl
  rw [Rule.essence, Alternative.rule, hrhs, hcode, Numbers.eq_idxOf hnodup hr.lhs,
    eq_map_of_rel hnodup hr.prec]

/-! ## Alike records -/

/-- Records with the same alternatives, which may be closed by different marks. The left-hand sides
of those that are kept are the same, in the order of their first rules. -/
structure Record.Alike (w w' : Record) : Prop where
  entries : w.entries = w'.entries
  names : w.mentions.eraseDups = w'.mentions.eraseDups
  alternatives : w.closings.map Prod.fst = w'.closings.map Prod.fst
  lhs : (w.kept.map Alternative.lhs).eraseDups = (w'.kept.map Alternative.lhs).eraseDups
  current : w.current = none ∧ w'.current = none

/-- Which alternatives are kept depends on their marks only if they are blank. -/
theorem Record.filter_kept (w : Record) : (w.kept.filter fun a => !a.isBlank) =
    (w.closings.map Prod.fst).filter fun a => !a.isBlank := by
  rw [kept, List.filter_map, List.filter_map, List.filter_filter]
  congr 1
  apply List.filter_congr
  intro c _
  simp only [Function.comp_apply]
  -- a blank one is left out on both sides, and every other one is kept
  cases c.1.isBlank with
  | true => rfl
  | false => rfl

/-- Without repetitions a list begins as before. -/
theorem head?_eraseDups (l : List String) : l.eraseDups.head? = l.head? := by
  cases l with
  | nil => rfl
  | cons n l => rw [List.eraseDups_cons]; rfl

/-! ## Histories -/

/-- No name is counted twice. -/
theorem History.nodup_names (h : History) : h.names.Nodup := nodup_eraseDups h.mentions

namespace Agrees

variable {h h' : History} {s s' : State}

/-- Nothing is known of a symbol without its rules but its name and its entries. -/
theorem map_bare (hs : Agrees h s) : s.grammar.table.symbols.map Symbol.bare =
    h.names.map (DeclEntry.symbol h.entries false) := by
  have hbare : Symbol.bare = (fun x : Symbol => { x with nullable := false }) ∘ Symbol.unlinked :=
    rfl
  rw [hbare, ← List.map_map, hs.symbols, List.map_map]
  rfl

/-- The rules say what the kept alternatives say. -/
theorem map_essence (hs : Agrees h s) (hcurrent : h.current = none) :
    s.grammar.rules.map Rule.essence = h.kept.map (Alternative.rule h.names) := by
  have hrules := hs.rules
  rw [hcurrent, Option.toList_none, List.append_nil] at hrules
  have heq : List.Forall₂ Eq (s.grammar.rules.map Rule.essence)
      (h.kept.map (Alternative.rule h.names)) := by
    rw [List.forall₂_map_left_iff, List.forall₂_map_right_iff]
    exact hrules.imp fun r a => Matches.essence_eq h.nodup_names
  rwa [List.forall₂_eq_eq_eq] at heq

/-- The left-hand sides of the rules are those of the kept alternatives. -/
theorem map_lhs (hs : Agrees h s) (hcurrent : h.current = none) :
    s.grammar.rules.map Rule.lhs = (h.kept.map Alternative.lhs).map h.names.idxOf := by
  have hlhs := congrArg (List.map Rule.lhs) (hs.map_essence hcurrent)
  rw [List.map_map, List.map_map] at hlhs
  rw [List.map_map]
  exact hlhs

/-- Reading starts from the declared symbol, else from the first one that is a left-hand side. -/
theorem start?_eq (hs : Agrees h s) (hcurrent : h.current = none) : s.grammar.start? =
    (DeclEntry.start? h.entries <|> (h.kept.map Alternative.lhs).eraseDups.head?).map
      h.names.idxOf := by
  rw [Grammar.start?, eq_map_of_rel h.nodup_names hs.declaredStart, ← List.head?_map,
    hs.map_lhs hcurrent, List.head?_map, head?_eraseDups]
  cases DeclEntry.start? h.entries with
  | none => rfl
  | some n => rfl

/-- The rules that are not blank are the alternatives that are not blank, in their order, be they
kept or not. -/
theorem essentialRules_eq (hs : Agrees h s) (hcurrent : h.current = none) :
    s.grammar.essentialRules = ((h.record.closings.map Prod.fst).filter fun a => !a.isBlank).map
      (Alternative.rule h.names) := by
  rw [Grammar.essentialRules_eq, hs.map_essence hcurrent, List.filter_map, ← Record.filter_kept,
    History.kept_record]
  congr 1
  exact List.filter_congr fun a _ => congrArg (!·) (a.isBlank_rule _)

/-- Every alternative is a production, be it kept as a rule or as a flag. -/
theorem production_iff (hs : Agrees h s) (hcurrent : h.current = none) (id : SymbolId)
    (rhs : List SymbolId) : s.grammar.Production id rhs ↔
      ∃ a ∈ h.record.closings.map Prod.fst,
        (a.rule h.names).lhs = id ∧ (a.rule h.names).rhs = rhs := by
  have hmap := hs.map_essence hcurrent
  have hclosings : h.record.closings.map Prod.fst = h.closed.map Closed.alternative := List.map_map
  rw [hclosings]
  constructor
  · rintro (⟨r, hr⟩ | ⟨id, hflag⟩)
    · have hmem : r.essence ∈ h.kept.map (Alternative.rule h.names) :=
        hmap ▸ List.mem_map_of_mem hr
      obtain ⟨a, ha, heq⟩ := List.mem_map.mp hmem
      obtain ⟨c, hc, rfl⟩ := List.mem_map.mp ha
      exact ⟨_, List.mem_map_of_mem (List.mem_filter.mp hc).1, (congrArg Rule.lhs heq :),
        (congrArg Rule.rhs heq :)⟩
    · -- a flag stands for an empty alternative in front of a bar
      obtain ⟨x, hx, hnullable⟩ := (Option.any_eq_true _ _).mp hflag
      obtain ⟨c, hc, -, hempty, hlhs⟩ := (hs.nullable_iff (List.mem_of_getElem? hx)).mp hnullable
      refine ⟨_, List.mem_map_of_mem hc, ?_, ?_⟩
      · have hid : Numbers h.names id x.name := by
          rw [Numbers, ← hs.names, names_getElem?, hx]
          rfl
        rw [Alternative.rule, hlhs, Numbers.eq_idxOf h.nodup_names hid]
      · rw [Alternative.rule, hempty]
        rfl
  · -- the other way round, an alternative is kept as a rule or leaves a flag behind
    rintro ⟨a, ha, rfl, rfl⟩
    obtain ⟨c, hc, rfl⟩ := List.mem_map.mp ha
    by_cases hkept : c.isKept = true
    · have hmem : c.alternative.rule h.names ∈ s.grammar.rules.map Rule.essence := by
        rw [hmap]
        exact List.mem_map_of_mem (List.mem_map_of_mem (List.mem_filter.mpr ⟨hc, hkept⟩))
      obtain ⟨r, hr, heq⟩ := List.mem_map.mp hmem
      rw [← heq]
      exact .rule r hr
    · -- what is not kept is empty, and its left-hand side is flagged
      simp only [Closed.isKept, Bool.not_eq_true', Bool.not_eq_false, Bool.and_eq_true] at hkept
      have hempty : c.alternative.symbols = [] := by
        rw [Alternative.eq_of_isBlank hkept.1]
      have hmention := (hs.known.lhs c.alternative
        (List.mem_append_left _ (List.mem_map_of_mem hc))).1
      have hid : Numbers h.names (h.names.idxOf c.alternative.lhs) c.alternative.lhs :=
        List.getElem?_idxOf (History.mem_names.mpr hmention)
      rw [← hs.names, Numbers, names_getElem?] at hid
      obtain ⟨x, hx, hname⟩ := Option.map_eq_some_iff.mp hid
      have hflag : x.nullable = true :=
        (hs.nullable_iff (List.mem_of_getElem? hx)).mpr ⟨c, hc, hkept.2, hempty, hname.symm⟩
      rw [Alternative.rule, hempty, ← hs.names]
      exact .flagged _ ((isNullable_eq_of_get? hx).trans hflag)

/-- Alternatives mean the same whichever marks close them. -/
theorem sameMeaning (hs : Agrees h s) (hs' : Agrees h' s') (hchained : s.grammar.Chained)
    (hchained' : s'.grammar.Chained) (halike : h.record.Alike h'.record) :
    s.grammar.SameMeaning s'.grammar := by
  -- everything compared is a function of the histories, and there the marks leave no trace
  obtain ⟨hcurrent, hcurrent'⟩ : h.current = none ∧ h'.current = none := halike.current
  have hentries : h.entries = h'.entries := halike.entries
  have hnames : h.names = h'.names := halike.names
  have hlhs : (h.kept.map Alternative.lhs).eraseDups = (h'.kept.map Alternative.lhs).eraseDups := by
    rw [← History.kept_record, ← History.kept_record]
    exact halike.lhs
  have hsymbols : s.grammar.table.symbols.map Symbol.bare =
      s'.grammar.table.symbols.map Symbol.bare := by
    rw [hs.map_bare, hs'.map_bare, hnames, hentries]
  have hrules : s.grammar.essentialRules = s'.grammar.essentialRules := by
    rw [hs.essentialRules_eq hcurrent, hs'.essentialRules_eq hcurrent', halike.alternatives, hnames]
  have hprod (id : SymbolId) (rhs : List SymbolId) :
      s.grammar.Production id rhs ↔ s'.grammar.Production id rhs := by
    rw [hs.production_iff hcurrent, hs'.production_iff hcurrent', halike.alternatives, hnames]
  -- the order in which rules are chained does not matter here, only whose rules there are
  have hhas (id : SymbolId) : s.grammar.hasRules id = s'.grammar.hasRules id := by
    rw [Bool.eq_iff_iff, hchained.hasRules_iff, hchained'.hasRules_iff, hs.map_lhs hcurrent,
      hs'.map_lhs hcurrent', hnames, List.mem_map, List.mem_map]
    simp only [← List.mem_eraseDups (l := h.kept.map _), ← List.mem_eraseDups (l := h'.kept.map _),
      hlhs]
  have hstart : s.grammar.start? = s'.grammar.start? := by
    rw [hs.start?_eq hcurrent, hs'.start?_eq hcurrent', hentries, hlhs, hnames]
  exact
    { symbols := hsymbols
      rules := hrules
      problems := Grammar.verify_eq hsymbols hrules hhas hstart
      findings := hs.fresh.findings_analyze_eq hs'.fresh hsymbols hprod
      start := by rw [Grammar.start?_analyze, Grammar.start?_analyze, hstart]
      analyzedRules := hs.fresh.essentialRules_analyze_eq hs'.fresh hsymbols hrules }

end Agrees

end Reading

end YaccGrammar
