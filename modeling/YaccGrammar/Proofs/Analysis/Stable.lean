import YaccGrammar.Proofs.Analysis.Scratch
import YaccGrammar.Proofs.Grammar.History

/-!
# A second analysis finds nothing new

After an analysis every part of it is at rest. The view is not stale. Every rule whose right-hand
side is nullable has a nullable left-hand side, and what a rule offers to the first-set of its
left-hand side is there. Rules that could be given a precedence have one. So each part of a second
analysis finds a grammar that it does not change.

Members are not all there is to a first-set: the number of its blocks has to come to rest as well.
That it does needs room for all symbols, and that every left-hand side is visited in every pass.

## Main statements

- `settleRules_of_still`: where no visit changes anything, one pass is enough.
- `computeNullable_analyze`, `computeFirstSets_analyze`: the loops are at rest.
- `Intact.analyze_analyze`: a second analysis gives the same grammar, block by block.
- `analysis_idempotent`: so it does after every history.
-/

namespace YaccGrammar

open Analysis SymbolTable

namespace Analysis

/-! ## Loops at rest -/

section Still

variable {visit : SymbolTable → Rule → Bool × SymbolTable}

/-- A pass whose visits change nothing leaves the table as it is and reports no change. -/
theorem pass_of_still {rules : List Rule} {t : SymbolTable}
    (h : ∀ r ∈ rules, visit t r = (false, t)) : pass visit rules t = (false, t) := by
  induction rules with
  | nil => rfl
  | cons r rules ih =>
    -- the table is still the same when the other rules are visited
    have hothers := ih fun r' hr' => h r' (List.mem_cons_of_mem r hr')
    simp only [pass, h r List.mem_cons_self, hothers, Bool.or_self]

/-- Where no visit changes anything, one pass is enough. -/
theorem settleRules_of_still {g : Grammar} (h : ∀ r ∈ g.rules, visit g.table r = (false, g.table)) :
    settleRules visit g = (1, g) := by
  simp only [settleRules, settle, pass_of_still h, Bool.false_eq_true, if_false]

end Still

section Visits

variable {t : SymbolTable} {r : Rule}

/-- A rule is at rest if its left-hand side is flagged whenever its right-hand side is nullable. -/
theorem visitNullable_of_closed (h : isRuleNullable t r = true → t.isNullable r.lhs = true) :
    visitNullable t r = (false, t) := by
  unfold visitNullable
  apply if_pos
  rw [Bool.or_eq_true, Bool.not_eq_true']
  cases hrule : isRuleNullable t r with
  | true => exact .inl (h hrule)
  | false => exact .inr rfl

/-- A rule is at rest if its left-hand side bears all that the right-hand side offers, and has all
blocks that it needs. -/
theorem visitFirst_of_closed (ht : t.Roomy) (hlhs : r.lhs < t.size) (hfull : Full t r.lhs)
    (h : ∀ i, Offers i t r.lhs r.rhs → Bears i t r.lhs) : visitFirst t r = (false, t) := by
  obtain ⟨x, hx⟩ := exists_get?_of_lt hlhs
  have hchanged : (x.firstSet.union (ruleFirst t r)).1 = false := by
    rw [Bool.eq_false_iff, Ne, BitSet.union_changed_iff]
    rintro ⟨i, hi, hnew⟩
    -- what is added is offered, so it is there
    obtain ⟨y, hy, hold⟩ := h i ((contains_ruleFirst t r i).mp hi)
    rw [hx] at hy
    cases hy
    rw [hnew] at hold
    cases hold
  -- no new member and no new block, so the union is the set itself
  have hunion : (x.firstSet.union (ruleFirst t r)).2 = x.firstSet := by
    apply BitSet.union_eq_self hchanged
    rw [length_ruleFirst ht, hfull x hx]
  have htable : (t.modify r.lhs fun s => { s with firstSet := x.firstSet }) = t :=
    modify_eq_self_of_get? hx rfl
  simp only [visitFirst, hx, hchanged, hunion, htable]

end Visits

end Analysis

/-! ## Analysed grammars -/

/-- A rule that is still without a precedence has no symbol that could lend it one. -/
theorem Grammar.backfillPrecedence_analyze (g : Grammar) :
    backfillPrecedence g.analyze = g.analyze := by
  have hrules : (g.analyze.rules.map fun r =>
      { r with precSymbol := rulePrecedence g.analyze.table r }) = g.analyze.rules := by
    -- the rules are compared one by one
    apply List.ext_getElem?
    intro k
    have hrule (r : Rule) : rulePrecedence g.analyze.table
        { r with precSymbol := rulePrecedence g.table r } = rulePrecedence g.table r := by
      -- which symbols have a precedence is the same in both analyses
      rw [rulePrecedence_congr g.enriched_analyze.hasPrecedence_eq]
      unfold rulePrecedence
      cases r.precSymbol with
      | some id => rfl
      | none => simp
    have hk := g.rule?_analyze k
    unfold rule? at hk
    rw [List.getElem?_map, hk, Option.map_map]
    congr 1
    funext r
    simp only [Function.comp_apply, hrule]
  simp only [backfillPrecedence, hrules]

namespace Grammar.Intact

variable {g : Grammar}

/-- First-sets are the last thing that is computed. -/
theorem withoutFirstSets_analyze (hg : g.Intact) :
    withoutFirstSets g.analyze.table = withoutFirstSets g.prepared.table :=
  firstMarking.erase_settleRules hg.prepared.sound.chained.lhs

/-- The flags of an analysed grammar are those that the first loop has found. -/
theorem isNullable_analyze (hg : g.Intact) :
    g.analyze.table.isNullable = (Analysis.computeNullable g.sorted).2.table.isNullable := by
  -- flags can be read off without first-sets
  have herase (t : SymbolTable) (s : SymbolId) :
      (withoutFirstSets t).isNullable s = t.isNullable s := by
    rw [withoutFirstSets, isNullable, isNullable, get?_mapSymbols, Option.any_map]
  funext s
  rw [← herase, hg.withoutFirstSets_analyze, herase]
  rfl

/-! ### The parts of a second analysis -/

/-- An analysed grammar is sorted, so another sort leaves it as it is. -/
theorem sorted_analyze (hg : g.Intact) : g.analyze.sorted = g.analyze := by
  -- neither loop writes the mark that the sort has removed
  have hstale : g.analyze.table.stale = false :=
    calc g.analyze.table.stale
      _ = (withoutFirstSets g.analyze.table).stale := rfl
      _ = (unflagged g.prepared.table).stale := by rw [hg.withoutFirstSets_analyze]; rfl
      _ = (unflagged g.sorted.table).stale :=
        congrArg stale (nullableMarking.erase_settleRules hg.sorted.sound.chained.lhs)
      _ = false := stale_sort g.table
  rw [Grammar.sorted, modifyTable, sort_of_fresh hstale]

/-- The flags are closed under the rules. -/
theorem computeNullable_analyze (hg : g.Intact) :
    Analysis.computeNullable g.analyze = (1, g.analyze) := by
  apply settleRules_of_still
  intro r' hr'
  -- the rule is one of the first analysis but for its precedence
  obtain ⟨r, hr, rfl⟩ := List.mem_map.mp hr'
  apply visitNullable_of_closed
  unfold isRuleNullable
  rw [hg.isNullable_analyze]
  exact nullableMarking.settleRules_closed (i := ()) hg.sorted.sound.chained.lhs (r := r) hr

/-- The first-sets are closed under the rules, and each of those that are visited has as many blocks
as it needs. -/
theorem computeFirstSets_analyze (hg : g.Intact) :
    Analysis.computeFirstSets g.analyze = (1, g.analyze) := by
  apply settleRules_of_still
  intro r hr
  apply visitFirst_of_closed hg.analyze.roomy (hg.analyze.sound.chained.lhs r hr)
  · -- blocks: the first analysis has visited every left-hand side
    exact full_computeFirstSets hg.prepared.roomy hr
  · -- members: the first analysis ended with a pass that found nothing new
    exact fun i => firstMarking.settleRules_closed hg.prepared.sound.chained.lhs hr

/-- A second analysis gives the same grammar. -/
theorem analyze_analyze (hg : g.Intact) : g.analyze.analyze = g.analyze := by
  have hprepared : g.analyze.prepared = g.analyze := by
    rw [Grammar.prepared, hg.sorted_analyze, hg.computeNullable_analyze,
      backfillPrecedence_analyze]
  rw [Grammar.analyze, hprepared, hg.computeFirstSets_analyze]

/-- It makes no difference where additions to first-sets are collected. -/
theorem analyzeInPlace_eq (hg : g.Intact) : g.analyzeInPlace = g.analyze := by
  rw [analyzeInPlace, collectFirstSets_eq hg.prepared.roomy, Grammar.analyze]

end Grammar.Intact

/-! ## Idempotence -/

namespace Grammar

/-- Two analyses in a row meet no fault, and the second one gives the grammar that the first one
gave, block by block. It makes no difference if first-sets are collected in one place. -/
structure Idempotent (g : Grammar) : Prop where
  first : Guarded.analyze g = .ok g.analyze
  second : Guarded.analyze g.analyze = .ok g.analyze
  firstInPlace : g.analyzeInPlace = g.analyze
  secondInPlace : g.analyze.analyzeInPlace = g.analyze
  /-- The same is true of the first-sets alone, however often they have been computed before. -/
  firstSetsInPlace : collectFirstSets g = Analysis.computeFirstSets g

/-- Analysis is idempotent on every grammar in which tables, links and room are in order. -/
theorem Intact.idempotent {g : Grammar} (hg : g.Intact) : g.Idempotent where
  first := Guarded.analyze_eq_ok hg.sound.inRange
  second := by rw [Guarded.analyze_eq_ok hg.analyze.sound.inRange, hg.analyze_analyze]
  firstInPlace := hg.analyzeInPlace_eq
  secondInPlace := by rw [hg.analyze.analyzeInPlace_eq, hg.analyze_analyze]
  firstSetsInPlace := collectFirstSets_eq hg.roomy

/-- Analysis is idempotent. Whatever the calls are and in whichever order they come, a second
analysis of the grammar that they build leaves all of it as the first one left it. A history is
refused only for a number that was not given out when it is used. -/
theorem analysis_idempotent (cs : List Call) :
    (∃ g, calls {} cs = .ok g ∧ Valid cs ∧ g.Idempotent) ∨
      calls {} cs = .error .outOfRange ∧ ¬ Valid cs := by
  rcases tracks_calls cs with ⟨g, hok, hvalid, h⟩ | hrefused
  · exact .inl ⟨g, hok, hvalid, h.intact.idempotent⟩
  · exact .inr hrefused

end Grammar

end YaccGrammar
