import Mathlib.Data.List.Sort
import YaccGrammar.Proofs.Analysis.FirstNames
import YaccGrammar.Proofs.BitSet

/-!
# What the analysis depends on

The analysis of a grammar depends on its symbols and its productions. Which rules the productions
come from, in which order they stand, and which of the empty ones are rules and which are flags,
makes no difference to what is found out.

## Main statements

- `Fresh.findings_analyze_eq`: grammars with the same symbols and productions have the same nullable
  symbols and the same first-sets.
- `Fresh.essentialRules_analyze_eq`: grammars with the same symbols, whose rules say the same but
  for blank ones, get the same precedences for them.
-/

namespace YaccGrammar

/-! ## Symbols -/

/-- What is known of a symbol without its rules: its name and kind, and what was declared of it. -/
def Symbol.bare (x : Symbol) : Symbol := { x with nullable := false, firstRule := none }

/-- What the analysis tells of a symbol, with the positions in its first-set in ascending order. -/
def Symbol.findings (x : Symbol) : Symbol × List Nat :=
  ({ x with firstSet := {}, firstRule := none }, x.firstSet.toList)

namespace SymbolTable

variable {t t' : SymbolTable}

/-- Tables whose lists of symbols look alike have symbols that do, number by number. -/
theorem map_get?_eq {f : Symbol → Symbol} (h : t.symbols.map f = t'.symbols.map f) (s : SymbolId) :
    (t.get? s).map f = (t'.get? s).map f := by
  rw [get?, get?, ← List.getElem?_map, ← List.getElem?_map, h]

/-- A symbol of one table has its counterpart in the other. -/
theorem exists_get?_of_map_eq {f : Symbol → Symbol} (h : t.symbols.map f = t'.symbols.map f)
    {s : SymbolId} {x : Symbol} (hx : t.get? s = some x) :
    ∃ y, t'.get? s = some y ∧ f y = f x := by
  have hs := map_get?_eq h s
  rw [hx] at hs
  exact Option.map_eq_some_iff.mp hs.symm

/-- The names are among what is known without the rules. -/
theorem names_eq_of_bare (h : t.symbols.map Symbol.bare = t'.symbols.map Symbol.bare) :
    t.names = t'.names := by
  have hnames := congrArg (List.map Symbol.name) h
  rw [List.map_map, List.map_map] at hnames
  exact hnames

/-- The positions of the symbols depend on their names. -/
theorem byName_eq_of_bare (h : t.symbols.map Symbol.bare = t'.symbols.map Symbol.bare) :
    t.byName = t'.byName :=
  byName_congr (names_eq_of_bare h)

end SymbolTable

open Analysis SymbolTable

/-! ## Rules -/

/-- What a rule says, without its line and its link. -/
def Rule.essence (r : Rule) : Rule :=
  { r with line := 0, code := r.code.map fun b => { b with line := 0 }, nextLhs := none }

/-- The rule says nothing but its left-hand side. -/
def Rule.isBlank (r : Rule) : Bool := r.rhs.isEmpty && r.code.isNone && r.precSymbol.isNone

/-- What the rules say, without the blank ones. -/
def Grammar.essentialRules (g : Grammar) : List Rule :=
  (g.rules.filter fun r => !r.isBlank).map Rule.essence

/-- Neither lines nor links make a rule blank. -/
theorem Rule.isBlank_essence (r : Rule) : r.essence.isBlank = r.isBlank := by
  simp [isBlank, essence]

/-- The lines can be left out before the blank rules are. -/
theorem Grammar.essentialRules_eq (g : Grammar) :
    g.essentialRules = (g.rules.map Rule.essence).filter fun r => !r.isBlank := by
  rw [essentialRules, List.filter_map]
  congr 1
  exact List.filter_congr fun r _ => congrArg (!·) r.isBlank_essence.symm

/-- The rule with its precedence. -/
def Rule.backfilled (t : SymbolTable) (r : Rule) : Rule :=
  { r with precSymbol := rulePrecedence t r }

/-- The precedence of a blank rule is that of no symbol. -/
theorem Rule.isBlank_backfilled (t : SymbolTable) (r : Rule) :
    (r.backfilled t).isBlank = r.isBlank := by
  unfold isBlank backfilled rulePrecedence
  -- a rule with symbols is not blank; one without symbols can inherit no precedence
  cases hrhs : r.rhs with
  | nil => simp
  | cons id ids => rfl

/-- The precedence of a rule depends on which symbols have one. -/
theorem rulePrecedence_congr {t t' : SymbolTable} (h : ∀ s, t.hasPrecedence s = t'.hasPrecedence s)
    (r : Rule) : rulePrecedence t r = rulePrecedence t' r := by
  rw [rulePrecedence, rulePrecedence, funext h]

/-- Which symbols have a precedence was declared, so the rules do not matter for that. -/
theorem hasPrecedence_eq_of_bare {t t' : SymbolTable}
    (h : t.symbols.map Symbol.bare = t'.symbols.map Symbol.bare) (s : SymbolId) :
    t.hasPrecedence s = t'.hasPrecedence s := by
  have hany (o : Option Symbol) : o.any (fun x => x.precedence.isSome) =
      (o.map Symbol.bare).any fun x => x.precedence.isSome := by
    rw [Option.any_map]
    rfl
  rw [hasPrecedence, hasPrecedence, hany, map_get?_eq h s, ← hany]

/-- The analysis leaves the start symbol alone. -/
theorem Grammar.start?_analyze (g : Grammar) : g.analyze.start? = g.start? := by
  rw [start?, start?, rules_analyze, List.head?_map, Option.map_map]
  rfl

/-! ## Derivations -/

/-- A grammar with more productions derives more in one or more steps. -/
theorem Grammar.DerivesPlus.mono {g g' : Grammar}
    (hprod : ∀ s rhs, g.Production s rhs → g'.Production s rhs) {u v : List SymbolId}
    (h : g.DerivesPlus u v) : g'.DerivesPlus u v := by
  have hstep (a b : List SymbolId) (h : g.Rewrites a b) : g'.Rewrites a b := by
    cases h with
    | replace p q h => exact .replace p q (hprod _ _ h)
  induction h with
  | single h => exact .single (hstep _ _ h)
  | tail _ h ih => exact ih.tail (hstep _ _ h)

/-! ## Grammars -/

namespace Fresh

variable {g g' : Grammar} {s : SymbolId} {x : Symbol}

/-- What the analysis makes of a symbol besides its first-set. -/
theorem exists_analyzed (hg : Fresh g) (hx : g.table.get? s = some x) :
    ∃ x', g.analyze.table.get? s = some x' ∧
      { x' with nullable := false, firstSet := {} } =
        { x with nullable := false, firstSet := {}, index := g.table.byName.idxOf s } ∧
      (x'.nullable = true ↔ g.Derives [s] []) := by
  obtain ⟨x', hx', -⟩ := hg.exists_get?_analyze hx
  -- first-sets change nothing else, and neither do flags
  obtain ⟨z, hz, hzx⟩ := Option.map_eq_some_iff.mp <|
    calc (g.prepared.table.get? s).map (fun z => { z with firstSet := {} })
      _ = (withoutFirstSets g.prepared.table).get? s := (get?_mapSymbols _ _ s).symm
      _ = (withoutFirstSets g.analyze.table).get? s := by rw [hg.erase_analyze]
      _ = some { x' with firstSet := {} } := by rw [withoutFirstSets, get?_mapSymbols, hx']; rfl
  -- the flags apart, the symbol is the one that was sorted
  have hunflagged : { z with nullable := false } =
      { x with nullable := false, index := g.table.byName.idxOf s } := by
    have htables := congrArg (get? · s) (unflagged_computeNullable hg.inRange_sorted)
    simp only [unflagged, get?_mapSymbols] at htables
    rw [show (computeNullable g.sorted).2.table.get? s = some z from hz, hg.get?_sorted, hx]
      at htables
    exact Option.some_inj.mp htables
  refine ⟨x', hx', ?_, ?_⟩
  · have hx'z := congrArg (fun y : Symbol => { y with nullable := false }) hzx
    have hzx' := congrArg (fun y : Symbol => { y with firstSet := {} }) hunflagged
    exact hx'z.symm.trans hzx'
  · -- the flag is that of the prepared grammar, and there the flags are exact
    have hnullable : z.nullable = x'.nullable := (congrArg Symbol.nullable hzx :)
    rw [← hnullable, ← isNullable_eq_of_get? hz]
    exact hg.ready.nullable s

/-- The analysis finds the precedences of rules in the symbols as they were. -/
theorem rules_analyze (hg : Fresh g) : g.analyze.rules = g.rules.map (Rule.backfilled g.table) := by
  have hflags := unflagged_computeNullable hg.inRange_sorted
  -- neither sorting nor flags touch what the symbols have for precedences
  have hprecedence (s : SymbolId) :
      (computeNullable g.sorted).2.table.hasPrecedence s = g.table.hasPrecedence s := by
    have hs := congrArg (fun t => (get? t s).any fun x => x.precedence.isSome) hflags
    simp only [unflagged, get?_mapSymbols, Option.any_map, hg.get?_sorted] at hs
    exact hs
  rw [Grammar.rules_analyze]
  apply List.map_congr_left
  intro r _
  rw [Rule.backfilled, rulePrecedence_congr hprecedence]

/-- A position in a first-set is one in the first-set that belongs to the other grammar. -/
theorem mem_firstSet_of_mem (hg : Fresh g) (hg' : Fresh g')
    (hsymbols : g.table.symbols.map Symbol.bare = g'.table.symbols.map Symbol.bare)
    (hprod : ∀ s rhs, g.Production s rhs → g'.Production s rhs) {y x' y' : Symbol}
    (hx : g.table.get? s = some x) (hy : g'.table.get? s = some y)
    (hxterminal : x.isTerminal = false) (hyterminal : y.isTerminal = false)
    (hx' : g.analyze.table.get? s = some x') (hy' : g'.analyze.table.get? s = some y') {i : Nat}
    (hi : i ∈ x'.firstSet.toList) : i ∈ y'.firstSet.toList := by
  -- the position is that of a terminal which a derivation begins with, and the other grammar has
  -- both
  obtain ⟨c, z, w, hz, hterminal, hview, hderives⟩ :=
    (hg.mem_firstSet_iff hx hxterminal hx' i).mp hi
  obtain ⟨z', hz', hbare⟩ := exists_get?_of_map_eq hsymbols hz
  have hkind : z'.kind = z.kind := (congrArg Symbol.kind hbare :)
  apply (hg'.mem_firstSet_iff hy hyterminal hy' i).mpr
  refine ⟨c, z', w, hz', ?_, ?_, hderives.mono hprod⟩
  · rw [Symbol.isTerminal, hkind]
    exact hterminal
  · rw [← byName_eq_of_bare hsymbols]
    exact hview

/-- Grammars with the same symbols and the same productions are told apart by no finding of the
analysis. -/
theorem findings_analyze_eq (hg : Fresh g) (hg' : Fresh g')
    (hsymbols : g.table.symbols.map Symbol.bare = g'.table.symbols.map Symbol.bare)
    (hprod : ∀ s rhs, g.Production s rhs ↔ g'.Production s rhs) :
    g.analyze.table.symbols.map Symbol.findings = g'.analyze.table.symbols.map Symbol.findings := by
  have hsize : g.table.size = g'.table.size := by
    rw [← length_names, ← length_names, names_eq_of_bare hsymbols]
  -- symbol by symbol, by their numbers
  apply List.ext_getElem?
  intro s
  rw [List.getElem?_map, List.getElem?_map]
  show (g.analyze.table.get? s).map _ = (g'.analyze.table.get? s).map _
  rcases Nat.lt_or_ge s g.table.size with hs | hs
  · obtain ⟨x, hx⟩ := exists_get?_of_lt hs
    obtain ⟨y, hy, hbare⟩ := exists_get?_of_map_eq hsymbols hx
    have hkind : y.kind = x.kind := (congrArg Symbol.kind hbare :)
    obtain ⟨x', hx', hxfields, hxnullable⟩ := hg.exists_analyzed hx
    obtain ⟨y', hy', hyfields, hynullable⟩ := hg'.exists_analyzed hy
    rw [hx', hy', Option.map_some, Option.map_some, Option.some_inj]
    -- the flags tell what is derived, and that is the same
    have hnullable : x'.nullable = y'.nullable := by
      apply Bool.eq_iff_iff.mpr
      rw [hxnullable, hynullable]
      exact ⟨.mono fun s rhs => (hprod s rhs).mp, .mono fun s rhs => (hprod s rhs).mpr⟩
    -- terminals have empty first-sets, and those of nonterminals have the same members in the same
    -- order
    have hfirst : x'.firstSet.toList = y'.firstSet.toList := by
      cases hterminal : x.isTerminal with
      | true =>
        have hxkind : x'.kind = x.kind := (congrArg Symbol.kind hxfields :)
        have hykind : y'.kind = y.kind := (congrArg Symbol.kind hyfields :)
        rw [hg.firstSet_analyze_of_terminal hx' (by rwa [Symbol.isTerminal, hxkind]),
          hg'.firstSet_analyze_of_terminal hy' (by rwa [Symbol.isTerminal, hykind, hkind])]
      | false =>
        have hyterminal : y.isTerminal = false := by rwa [Symbol.isTerminal, hkind]
        apply List.Pairwise.eq_of_mem_iff x'.firstSet.pairwise_toList y'.firstSet.pairwise_toList
        intro i
        exact ⟨hg.mem_firstSet_of_mem hg' hsymbols (fun s rhs => (hprod s rhs).mp) hx hy hterminal
            hyterminal hx' hy',
          hg'.mem_firstSet_of_mem hg hsymbols.symm (fun s rhs => (hprod s rhs).mpr) hy hx
            hyterminal hterminal hy' hx'⟩
    -- all else is as it was declared
    have hfields : { x' with nullable := false, firstSet := {}, firstRule := none } =
        { y' with nullable := false, firstSet := {}, firstRule := none } := by
      have hxbare := congrArg (fun z : Symbol => { z with firstRule := none }) hxfields
      have hybare := congrArg (fun z : Symbol => { z with firstRule := none }) hyfields
      have hindexed := congrArg (fun z : Symbol =>
        { z with firstSet := {}, index := g.table.byName.idxOf s }) hbare
      rw [← byName_eq_of_bare hsymbols] at hybare
      exact hxbare.trans (hindexed.symm.trans hybare.symm)
    rw [Symbol.findings, Symbol.findings, hfirst]
    refine congrArg (·, y'.firstSet.toList) ?_
    cases x'
    cases y'
    simp_all
  · -- behind the last symbol there is none in either table
    have hnone : g.analyze.table.get? s = none :=
      List.getElem?_eq_none (hg.size_analyze.trans_le hs)
    have hnone' : g'.analyze.table.get? s = none :=
      List.getElem?_eq_none (hg'.size_analyze.trans_le (hsize ▸ hs))
    rw [hnone, hnone']

/-- What the analysed rules say depends on what the rules say. -/
theorem essentialRules_analyze (hg : Fresh g) :
    g.analyze.essentialRules = g.essentialRules.map (Rule.backfilled g.table) := by
  rw [Grammar.essentialRules, Grammar.essentialRules, hg.rules_analyze, List.filter_map,
    List.map_map, List.map_map]
  congr 1
  exact List.filter_congr fun r _ => congrArg (!·) (r.isBlank_backfilled _)

/-- Grammars with the same symbols whose rules say the same get the same precedences for them. -/
theorem essentialRules_analyze_eq (hg : Fresh g) (hg' : Fresh g')
    (hsymbols : g.table.symbols.map Symbol.bare = g'.table.symbols.map Symbol.bare)
    (hrules : g.essentialRules = g'.essentialRules) :
    g.analyze.essentialRules = g'.analyze.essentialRules := by
  rw [hg.essentialRules_analyze, hg'.essentialRules_analyze, hrules]
  apply List.map_congr_left
  intro r _
  rw [Rule.backfilled, Rule.backfilled, rulePrecedence_congr (hasPrecedence_eq_of_bare hsymbols)]

end Fresh

end YaccGrammar
