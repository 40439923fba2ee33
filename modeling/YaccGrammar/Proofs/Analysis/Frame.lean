import YaccGrammar.Proofs.Analysis.Congruence
import YaccGrammar.Proofs.Analysis.Scratch
import YaccGrammar.Proofs.Guarded.Analysis

/-!
# What the analysis leaves alone

The analysis writes three fields of a symbol and one field of a rule. Each of its parts writes only
its own: sorting the positions, the first loop the flags, the second loop the first-sets, and the
backfilling the precedences of rules. Flags are never cleared and first-sets never lose a member.

## Main statements

- `Enriched.visitNullable`, `Enriched.visitFirst`: what one visit does to a table.
- `Enriched.settleRules`: what the passes do to it.
- `lends_rulePrecedence`: the symbol that a rule has its precedence from.
- `Enriched.of_alike`: blocks without members do not matter to this.
- `analyze_touches_results`: what the analysis does to a grammar.
-/

namespace YaccGrammar

open Analysis

/-! ## Symbols -/

/-- What was declared of a symbol has stayed, and what was found out about it still holds. -/
structure Symbol.Enriched (x x' : Symbol) : Prop where
  name : x'.name = x.name
  kind : x'.kind = x.kind
  precedence : x'.precedence = x.precedence
  assoc : x'.assoc = x.assoc
  tag : x'.tag = x.tag
  firstRule : x'.firstRule = x.firstRule
  nullable : x.nullable = true → x'.nullable = true
  firstSet : ∀ i, x.firstSet.contains i = true → x'.firstSet.contains i = true

namespace Symbol.Enriched

theorem refl (x : Symbol) : x.Enriched x :=
  ⟨rfl, rfl, rfl, rfl, rfl, rfl, id, fun _ => id⟩

theorem trans {x y z : Symbol} (h : x.Enriched y) (h' : y.Enriched z) : x.Enriched z where
  name := h'.name.trans h.name
  kind := h'.kind.trans h.kind
  precedence := h'.precedence.trans h.precedence
  assoc := h'.assoc.trans h.assoc
  tag := h'.tag.trans h.tag
  firstRule := h'.firstRule.trans h.firstRule
  nullable hx := h'.nullable (h.nullable hx)
  firstSet i hi := h'.firstSet i (h.firstSet i hi)

end Symbol.Enriched

/-! ## Tables -/

namespace SymbolTable

/-- Every symbol is where it was, and so are the counts. -/
structure Enriched (t t' : SymbolTable) : Prop where
  size : t'.size = t.size
  symbol : ∀ id x, t.get? id = some x → ∃ x', t'.get? id = some x' ∧ x.Enriched x'
  terminals : t'.terminals = t.terminals
  nonterminals : t'.nonterminals = t.nonterminals

namespace Enriched

variable {t t' t'' : SymbolTable}

theorem refl (t : SymbolTable) : t.Enriched t where
  size := rfl
  symbol _ x hx := ⟨x, hx, .refl x⟩
  terminals := rfl
  nonterminals := rfl

theorem trans (h : t.Enriched t') (h' : t'.Enriched t'') : t.Enriched t'' where
  size := h'.size.trans h.size
  symbol id x hx := by
    obtain ⟨y, hy, hxy⟩ := h.symbol id x hx
    obtain ⟨z, hz, hyz⟩ := h'.symbol id y hy
    exact ⟨z, hz, hxy.trans hyz⟩
  terminals := h'.terminals.trans h.terminals
  nonterminals := h'.nonterminals.trans h.nonterminals

/-- A table is enriched if one of its symbols is. -/
theorem modify (t : SymbolTable) (id : SymbolId) {f : Symbol → Symbol}
    (hf : ∀ x, t.get? id = some x → x.Enriched (f x)) : t.Enriched (t.modify id f) where
  size := size_modify t id f
  symbol s x hx := by
    rw [get?_modify]
    -- the symbol that is changed, and the others
    split
    next hs =>
      subst hs
      exact ⟨f x, by rw [hx, Option.map_some], hf x hx⟩
    next => exact ⟨x, hx, .refl x⟩
  terminals := rfl
  nonterminals := rfl

/-- Sorting gives the symbols other positions. -/
theorem sort (t : SymbolTable) : t.Enriched t.sort where
  size := Fresh.size_sorted { table := t }
  symbol id x hx := by
    -- a table that is sorted already stays as it is
    cases hstale : t.stale with
    | false => exact ⟨x, by simpa [SymbolTable.sort, hstale] using hx, .refl x⟩
    | true =>
      rw [get?_sort hstale, hx]
      exact ⟨_, rfl, ⟨rfl, rfl, rfl, rfl, rfl, rfl, fun h => h, fun _ h => h⟩⟩
  terminals := by
    unfold SymbolTable.sort
    split <;> rfl
  nonterminals := by
    unfold SymbolTable.sort
    split <;> rfl

/-- A visit for flags sets one, at most. -/
theorem visitNullable (t : SymbolTable) (r : Rule) :
    t.Enriched (Analysis.visitNullable t r).2 := by
  unfold Analysis.visitNullable
  split
  · exact .refl t
  · exact .modify t r.lhs fun x _ => ⟨rfl, rfl, rfl, rfl, rfl, rfl, fun _ => rfl, fun _ => id⟩

/-- A visit for first-sets adds to one, at most. -/
theorem visitFirst (t : SymbolTable) (r : Rule) : t.Enriched (Analysis.visitFirst t r).2 := by
  unfold Analysis.visitFirst
  split
  · exact .refl t
  next lhs hlhs =>
    refine .modify t r.lhs fun x hx => ?_
    -- the first-set that is written is a union with the one of this symbol
    rw [hlhs] at hx
    cases hx
    refine ⟨rfl, rfl, rfl, rfl, rfl, rfl, id, fun i hi => ?_⟩
    exact (BitSet.contains_union _ _ i).mpr (.inl hi)

/-- Blocks without members make no difference. -/
theorem of_alike (h : t.Enriched t') (halike : Alike t'' t') : t.Enriched t'' := by
  obtain ⟨herase, hbears⟩ := halike
  have hsize : t''.size = t'.size :=
    calc t''.size
      _ = (withoutFirstSets t'').size := (size_mapSymbols _ t'').symm
      _ = (withoutFirstSets t').size := by rw [herase]
      _ = t'.size := size_mapSymbols _ t'
  constructor
  case size => exact hsize.trans h.size
  case terminals => exact (congrArg SymbolTable.terminals herase).trans h.terminals
  case nonterminals => exact (congrArg SymbolTable.nonterminals herase).trans h.nonterminals
  case symbol =>
    intro id x hx
    obtain ⟨x', hx', hxx'⟩ := h.symbol id x hx
    obtain ⟨x'', hx''⟩ := exists_get?_of_lt (hsize ▸ lt_size_of_get? hx')
    -- but for the first-sets both tables have the same symbols
    have hfields : { x'' with firstSet := {} } = { x' with firstSet := {} } := by
      have hget := congrArg (·.get? id) herase
      simpa only [withoutFirstSets, get?_mapSymbols, hx', hx'', Option.map_some,
        Option.some_inj] using hget
    obtain ⟨hname, hkind, hprecedence, hassoc, htag, hnullable, -, -, hfirstRule⟩ :=
      Symbol.mk.inj hfields
    refine ⟨x'', hx'', hname.trans hxx'.name, hkind.trans hxx'.kind,
      hprecedence.trans hxx'.precedence, hassoc.trans hxx'.assoc, htag.trans hxx'.tag,
      hfirstRule.trans hxx'.firstRule, fun hx => hnullable.trans (hxx'.nullable hx), fun i hi => ?_⟩
    -- a member of the one first-set is borne, so it is a member of the other
    obtain ⟨y, hy, hmem⟩ := (hbears i id).mpr ⟨x', hx', hxx'.firstSet i hi⟩
    rw [hx''] at hy
    cases hy
    exact hmem

/-- What every visit does to a table, the passes do to it. -/
theorem settleRules {visit : SymbolTable → Rule → Bool × SymbolTable}
    (hvisit : ∀ (t : SymbolTable) r, t.Enriched (visit t r).2) (g : Grammar) :
    g.table.Enriched (Analysis.settleRules visit g).2.table :=
  settle_induction (fun t r _ ht => ht.trans (hvisit t r)) _ (.refl g.table)

/-- The same symbols have a precedence. -/
theorem hasPrecedence_eq (h : t.Enriched t') (id : SymbolId) :
    t'.hasPrecedence id = t.hasPrecedence id := by
  unfold hasPrecedence
  cases hx : t.get? id with
  | some x =>
    obtain ⟨x', hx', hxx'⟩ := h.symbol id x hx
    rw [hx', Option.any_some, Option.any_some, hxx'.precedence]
  | none =>
    -- a number that no symbol has is that of none afterwards
    have hsize : t.size ≤ id := List.getElem?_eq_none_iff.mp hx
    have hx' : t'.get? id = none := List.getElem?_eq_none_iff.mpr (h.size.trans_le hsize)
    rw [hx']

end Enriched

end SymbolTable

/-! ## Rules -/

/-- The symbol that lends a rule its precedence: the one that the rule names, otherwise the leftmost
one of the right-hand side that has a precedence, otherwise none. -/
inductive Rule.Lends (t : SymbolTable) (r : Rule) : Option SymbolId → Prop where
  | named {id : SymbolId} (h : r.precSymbol = some id) : Lends t r (some id)
  | leftmost {id : SymbolId} {before after : List SymbolId} (h : r.precSymbol = none)
      (hrhs : r.rhs = before ++ id :: after) (hid : t.hasPrecedence id = true)
      (hbefore : ∀ s ∈ before, t.hasPrecedence s = false) : Lends t r (some id)
  | nothing (h : r.precSymbol = none) (hrhs : ∀ s ∈ r.rhs, t.hasPrecedence s = false) :
      Lends t r none

/-- The precedence of a rule comes from the symbol that lends it. -/
theorem lends_rulePrecedence (t : SymbolTable) (r : Rule) : r.Lends t (rulePrecedence t r) := by
  unfold rulePrecedence
  cases hprec : r.precSymbol with
  | some id => exact .named hprec
  | none =>
    show r.Lends t (r.rhs.find? t.hasPrecedence)
    cases hfound : r.rhs.find? t.hasPrecedence with
    | some id =>
      -- the search finds the leftmost one
      obtain ⟨hid, before, after, hrhs, hbefore⟩ := List.find?_eq_some_iff_append.mp hfound
      refine .leftmost hprec hrhs hid fun s hs => ?_
      simpa using hbefore s hs
    | none =>
      refine .nothing hprec fun s hs => ?_
      simpa using List.find?_eq_none.mp hfound s hs

/-! ## Grammars -/

namespace Grammar

/-- What the analysis may make of a grammar: symbols are enriched, rules are told where they have
their precedence from, and nothing else is written. -/
structure Analysed (g g' : Grammar) : Prop where
  table : g.table.Enriched g'.table
  length : g'.rules.length = g.rules.length
  rule : ∀ k r, g.rule? k = some r →
    ∃ lender, r.Lends g.table lender ∧ g'.rule? k = some { r with precSymbol := lender }
  declaredStart : g'.declaredStart = g.declaredStart
  importCode : g'.importCode = g.importCode
  unionCode : g'.unionCode = g.unionCode
  trailingCode : g'.trailingCode = g.trailingCode

variable {g : Grammar}

/-- Sorting a grammar enriches its symbols. -/
theorem enriched_sorted (g : Grammar) : g.table.Enriched g.sorted.table := .sort g.table

/-- So does preparing it, which sets flags. -/
theorem enriched_prepared (g : Grammar) : g.table.Enriched g.prepared.table :=
  g.enriched_sorted.trans (.settleRules .visitNullable g.sorted)

/-- The analysis enriches the symbols of a grammar. -/
theorem enriched_analyze (g : Grammar) : g.table.Enriched g.analyze.table :=
  g.enriched_prepared.trans (.settleRules .visitFirst g.prepared)

/-- The analysis writes the precedences of rules, and nothing else in them. -/
theorem rule?_analyze (g : Grammar) (k : RuleId) : g.analyze.rule? k =
    (g.rule? k).map fun r => { r with precSymbol := rulePrecedence g.table r } := by
  have hprec (r : Rule) :
      rulePrecedence (computeNullable g.sorted).2.table r = rulePrecedence g.table r :=
    rulePrecedence_congr g.enriched_prepared.hasPrecedence_eq r
  simp only [rule?, rules_analyze, List.getElem?_map, hprec]

/-- The analysis writes its results only. -/
theorem analysed_analyze (g : Grammar) : g.Analysed g.analyze := by
  constructor
  case table => exact g.enriched_analyze
  case length => rw [rules_analyze, List.length_map]
  case rule =>
    intro k r hr
    refine ⟨rulePrecedence g.table r, lends_rulePrecedence g.table r, ?_⟩
    rw [rule?_analyze, hr, Option.map_some]
  all_goals rfl

/-- Where additions to first-sets are collected makes a difference in blocks only. -/
theorem analysed_analyzeInPlace (hg : g.InRange) : g.Analysed g.analyzeInPlace := by
  -- the tables that result are alike, and nothing else is different
  have hprepared : ∀ r ∈ g.prepared.rules, r.lhs < g.prepared.table.size := by
    rw [g.enriched_prepared.size]
    exact List.forall_mem_map.mpr fun r hr => (hg r hr).1
  have halike := (collectFirstSets_alike hprepared).2
  have hanalyze := g.analysed_analyze
  exact { hanalyze with table := hanalyze.table.of_alike halike }

/-- The analysis meets no fault in a grammar whose rules name symbols that exist, and it writes
nothing but its results: a flag is not cleared, a first-set loses no member, and a rule without a
precedence gets that of the leftmost symbol that has one. The same holds when all additions to
first-sets are collected in one place. -/
theorem analyze_touches_results (g : Grammar) (hg : g.InRange) :
    Guarded.analyze g = .ok g.analyze ∧ g.Analysed g.analyze ∧ g.Analysed g.analyzeInPlace :=
  ⟨Guarded.analyze_eq_ok hg, g.analysed_analyze, analysed_analyzeInPlace hg⟩

/-- A rule keeps the precedence that it names, another takes the leftmost one, and a third has
none. -/
theorem analyze_touches_results_sums :
    let g : Grammar :=
      { table :=
          { symbols := [.ofName "sum",
              { Symbol.ofName "PLUS" with precedence := some 1, assoc := .left },
              { Symbol.ofName "SIGN" with precedence := some 2 }, .ofName "MINUS"]
            stale := true }
        rules := [⟨0, 1, [0, 1, 0], none, none, none⟩, ⟨0, 2, [3, 0], none, some 2, none⟩,
          ⟨0, 3, [], none, none, none⟩] }
    g.InRange ∧
      (Guarded.analyze g = .ok g.analyze ∧ g.Analysed g.analyze ∧ g.Analysed g.analyzeInPlace) ∧
      g.analyze.rules.map Rule.precSymbol = [some 1, some 2, none] := by
  intro g
  have hg : g.InRange := by
    unfold InRange
    decide
  exact ⟨hg, g.analyze_touches_results hg, by decide⟩

end Grammar

end YaccGrammar
