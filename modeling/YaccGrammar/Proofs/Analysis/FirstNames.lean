import YaccGrammar.Analysis.Basic
import YaccGrammar.Proofs.Analysis.FirstSet
import YaccGrammar.Proofs.Symbol.Sorted
import YaccGrammar.Proofs.Text.ByteOrder

/-!
# First-sets by name

Analysing a grammar that is fresh from reading. Sorting gives every symbol its position, so that
the positions in a first-set can be read as names, and they come out in the order of the names.

## Main statements

- `Fresh.ready`: a fresh grammar, once it is prepared, is ready for first-sets.
- `Fresh.firstSetNames_analyze`: the names that a nonterminal can begin with.
-/

namespace YaccGrammar

open Analysis SymbolTable

/-- What reading guarantees of a grammar that has not been analysed. -/
structure Fresh (g : Grammar) : Prop where
  names : g.table.names.Nodup
  stale : 0 < g.table.size → g.table.stale = true
  firstSet : ∀ s x, g.table.get? s = some x → x.firstSet = {}
  inRange : g.InRange
  /-- Rules and flags belong to nonterminals. -/
  nonterminal : ∀ s x rhs, g.table.get? s = some x → g.Production s rhs → x.isTerminal = false

/-- The analysis gives the rules their precedences, and changes nothing else about them. -/
theorem Grammar.rules_analyze (g : Grammar) :
    g.analyze.rules = g.rules.map fun r =>
      { r with precSymbol := rulePrecedence (computeNullable g.sorted).2.table r } :=
  rfl

namespace Fresh

variable {g : Grammar}

/-! ## Preparation -/

/-- Sorting gives every symbol its position, and changes nothing else about it. -/
theorem get?_sorted (hg : Fresh g) (s : SymbolId) :
    g.sorted.table.get? s =
      (g.table.get? s).map fun x => { x with index := g.table.byName.idxOf s } := by
  -- the view of an empty table is not stale, but then there is nothing to number
  by_cases hsize : 0 < g.table.size
  · exact get?_sort (hg.stale hsize) s
  · have hnil : g.table.symbols = [] := List.length_eq_zero_iff.mp (Nat.eq_zero_of_not_pos hsize)
    simp only [Grammar.sorted, Grammar.modifyTable, sort, get?]
    split
    · simp [hnil]
    · simp [hnil]

/-- Sorting adds no symbol. -/
theorem size_sorted (g : Grammar) : g.sorted.table.size = g.table.size := by
  simp only [Grammar.sorted, Grammar.modifyTable, sort, size]
  split
  · exact List.length_mapIdx
  · rfl

/-- The rules stay in range. -/
theorem inRange_sorted (hg : Fresh g) : g.sorted.InRange := by
  unfold Grammar.InRange
  rw [size_sorted]
  exact hg.inRange

/-- Sorting does not change what is derived. -/
theorem derives_sorted_iff (hg : Fresh g) (u v : List SymbolId) :
    g.sorted.Derives u v ↔ g.Derives u v := by
  have hflags (s : SymbolId) : g.sorted.table.isNullable s = g.table.isNullable s := by
    rw [isNullable, isNullable, hg.get?_sorted, Option.any_map]
  -- the rules are the same, and the flags are
  constructor
  · apply Grammar.Derives.mono
    rintro s rhs (⟨r, hmem⟩ | ⟨s, hflag⟩)
    · exact .rule r hmem
    · exact .flagged s (hflags s ▸ hflag)
  · apply Grammar.Derives.mono
    rintro s rhs (⟨r, hmem⟩ | ⟨s, hflag⟩)
    · exact .rule r hmem
    · exact .flagged s ((hflags s).trans hflag)

/-- What preparing a grammar does to a symbol besides its flag. -/
theorem get?_prepared (hg : Fresh g) (s : SymbolId) :
    (g.prepared.table.get? s).map (fun x => (x.name, x.kind, x.firstSet, x.index)) =
      (g.table.get? s).map fun x => (x.name, x.kind, x.firstSet, g.table.byName.idxOf s) := by
  have hunflagged := unflagged_computeNullable hg.inRange_sorted
  have hs : (g.prepared.table.get? s).map (fun x => { x with nullable := false }) =
      (g.sorted.table.get? s).map fun x => { x with nullable := false } := by
    rw [← get?_mapSymbols, ← get?_mapSymbols]
    exact congrArg (get? · s) hunflagged
  have hfields := congrArg (Option.map fun x : Symbol => (x.name, x.kind, x.firstSet, x.index)) hs
  rw [hg.get?_sorted] at hfields
  simpa only [Option.map_map, Function.comp_def] using hfields

/-- Preparing a grammar adds no symbol. -/
theorem size_prepared (hg : Fresh g) : g.prepared.table.size = g.table.size :=
  (size_computeNullable hg.inRange_sorted).trans (size_sorted g)

/-- A symbol of the prepared grammar was one before, with an empty first-set. -/
theorem exists_get?_of_get?_prepared (hg : Fresh g) {s : SymbolId} {x' : Symbol}
    (hx' : g.prepared.table.get? s = some x') :
    ∃ x, g.table.get? s = some x ∧ x'.name = x.name ∧ x'.isTerminal = x.isTerminal ∧
      x'.firstSet = {} ∧ x'.index = g.table.byName.idxOf s := by
  have hs := hg.get?_prepared s
  rw [hx'] at hs
  obtain ⟨x, hx, heq⟩ := Option.map_eq_some_iff.mp hs.symm
  simp only [Prod.mk.injEq] at heq
  obtain ⟨hname, hkind, hfirst, hindex⟩ := heq
  refine ⟨x, hx, hname.symm, Symbol.isTerminal_congr hkind.symm, ?_, hindex.symm⟩
  -- reading filled no first-set
  rw [← hfirst, hg.firstSet s x hx]

/-- A symbol keeps its name and kind, and has its position once the grammar is prepared. -/
theorem exists_get?_prepared (hg : Fresh g) {s : SymbolId} {x : Symbol}
    (hx : g.table.get? s = some x) : ∃ x', g.prepared.table.get? s = some x' ∧
      x'.name = x.name ∧ x'.isTerminal = x.isTerminal ∧ x'.index = g.table.byName.idxOf s := by
  obtain ⟨x', hx'⟩ := exists_get?_of_lt (hg.size_prepared ▸ lt_size_of_get? hx)
  obtain ⟨y, hy, hname, hterminal, -, hindex⟩ := hg.exists_get?_of_get?_prepared hx'
  rw [hx] at hy
  cases hy
  exact ⟨x', hx', hname, hterminal, hindex⟩

/-- Backfilling precedences changes nothing that productions depend on. -/
theorem ready (hg : Fresh g) : Ready g g.prepared where
  inRange := by
    unfold Grammar.InRange
    rw [hg.size_prepared]
    intro r' hr'
    obtain ⟨r, hr, rfl⟩ := List.mem_map.mp hr'
    exact hg.inRange r hr
  rule := by
    intro r' hr'
    obtain ⟨r, hr, rfl⟩ := List.mem_map.mp hr'
    exact ⟨r, hr, rfl, rfl⟩
  exists_rule := by
    intro r hr
    exact ⟨_, List.mem_map_of_mem hr, rfl, rfl⟩
  nullable := by
    intro s
    rw [← hg.derives_sorted_iff]
    exact isNullable_computeNullable_iff hg.inRange_sorted s
  nonterminal := by
    intro s x' rhs hx' hprod
    obtain ⟨x, hx, -, hterminal, -⟩ := hg.exists_get?_of_get?_prepared hx'
    rw [hterminal]
    exact hg.nonterminal s x rhs hx hprod
  notBears := by
    rintro i s ⟨x', hx', hcontains⟩
    obtain ⟨-, -, -, -, hfirst, -⟩ := hg.exists_get?_of_get?_prepared hx'
    have hempty : ({} : BitSet).contains i = false := BitSet.contains_empty i
    rw [hfirst, hempty] at hcontains
    contradiction

/-! ## Names -/

/-- But for the first-sets, the analysis leaves the symbols as they were prepared. -/
theorem erase_analyze (hg : Fresh g) :
    withoutFirstSets g.analyze.table = withoutFirstSets g.prepared.table :=
  firstMarking.erase_settleRules fun r hr => (hg.ready.inRange r hr).1

/-- The analysis adds no symbol. -/
theorem size_analyze (hg : Fresh g) : g.analyze.table.size = g.table.size := by
  rw [← firstMarking.size_erase g.analyze.table, hg.erase_analyze, firstMarking.size_erase,
    hg.size_prepared]

/-- A symbol keeps its name and kind, and has its position once the grammar is analysed. -/
theorem exists_get?_analyze (hg : Fresh g) {s : SymbolId} {x : Symbol}
    (hx : g.table.get? s = some x) : ∃ x', g.analyze.table.get? s = some x' ∧
      x'.name = x.name ∧ x'.isTerminal = x.isTerminal ∧ x'.index = g.table.byName.idxOf s := by
  obtain ⟨y, hy, hname, hterminal, hindex⟩ := hg.exists_get?_prepared hx
  obtain ⟨x', hx', hkind', -, hindex', hname'⟩ :=
    exists_get?_of_withoutFirstSets hg.erase_analyze.symm hy
  exact ⟨x', hx', hname'.trans hname, (Symbol.isTerminal_congr hkind').trans hterminal,
    hindex'.trans hindex⟩

/-- The analysis renames no symbol. -/
theorem name_analyze (hg : Fresh g) {s : SymbolId} {x : Symbol} (hx : g.table.get? s = some x) :
    g.analyze.name s = x.name := by
  obtain ⟨x', hx', hname, -⟩ := hg.exists_get?_analyze hx
  exact (name_eq_of_get? hx').trans hname

/-- The view of the symbols is the one that sorting made. -/
theorem sorted_analyze (hg : Fresh g) (hsize : 0 < g.table.size) :
    g.analyze.table.sorted = .ok g.table.byName :=
  calc g.analyze.table.sorted
    _ = (withoutFirstSets g.analyze.table).sorted := rfl
    _ = (withoutFirstSets g.prepared.table).sorted := by rw [hg.erase_analyze]
    _ = (unflagged g.prepared.table).sorted := rfl
    _ = (unflagged g.sorted.table).sorted :=
      congrArg SymbolTable.sorted (unflagged_computeNullable hg.inRange_sorted)
    _ = .ok g.table.byName := sorted_sort (hg.stale hsize)

/-- The entries of a nonterminal are the positions of the terminals that it can begin with. -/
theorem mem_firstSet_iff (hg : Fresh g) {s : SymbolId} {x x' : Symbol}
    (hx : g.table.get? s = some x) (hnonterminal : x.isTerminal = false)
    (hx' : g.analyze.table.get? s = some x') (i : Nat) :
    i ∈ x'.firstSet.toList ↔ ∃ c y w, g.table.get? c = some y ∧ y.isTerminal = true ∧
      g.table.byName[i]? = some c ∧ g.DerivesPlus [s] (c :: w) := by
  obtain ⟨z, hz, -, hkind, -⟩ := hg.exists_get?_prepared hx
  have hbears : i ∈ x'.firstSet.toList ↔ Bears i g.analyze.table s := by
    rw [BitSet.mem_toList, Bears]
    simp [hx']
  rw [hbears, Grammar.analyze, hg.ready.bears_iff hz (hkind.trans hnonterminal)]
  -- the index of a terminal is its position in the view
  constructor
  · rintro ⟨c, y', w, hy', hterminal, hindex, hderives⟩
    obtain ⟨y, hy, -, hykind, -, hyindex⟩ := hg.exists_get?_of_get?_prepared hy'
    refine ⟨c, y, w, hy, hykind ▸ hterminal, ?_, ?_⟩
    · exact getElem?_byName_iff.mpr ⟨lt_size_of_get? hy, hyindex.symm.trans hindex⟩
    · rcases Relation.reflTransGen_iff_eq_or_transGen.mp hderives with heq | hplus
      · -- a nonterminal does not begin with itself as a terminal
        rw [List.cons.injEq] at heq
        rw [heq.1, hx] at hy
        cases hy
        rw [← hykind, hterminal] at hnonterminal
        contradiction
      · exact hplus
  · rintro ⟨c, y, w, hy, hterminal, hview, hderives⟩
    obtain ⟨y', hy', -, hykind, hyindex⟩ := hg.exists_get?_prepared hy
    exact ⟨c, y', w, hy', hykind.trans hterminal,
      hyindex.trans (getElem?_byName_iff.mp hview).2, hderives.to_reflTransGen⟩

/-- The names in the first-set of a nonterminal are those of the terminals that it can begin with,
in ascending order. -/
theorem firstSetNames_analyze (hg : Fresh g) {s : SymbolId} {x : Symbol}
    (hx : g.table.get? s = some x) (hnonterminal : x.isTerminal = false) :
    ∃ names, g.analyze.firstSetNames s = .ok names ∧ names.Pairwise (· < ·) ∧
      ∀ n, n ∈ names ↔ ∃ c y w, g.table.get? c = some y ∧ y.isTerminal = true ∧ y.name = n ∧
        g.DerivesPlus [s] (c :: w) := by
  obtain ⟨x', hx', -⟩ := hg.exists_get?_analyze hx
  have hmem := hg.mem_firstSet_iff hx hnonterminal hx'
  have hview := hg.sorted_analyze (Nat.zero_lt_of_lt (lt_size_of_get? hx))
  refine ⟨x'.firstSet.toList.map g.table.nameAt, ?_, ?_, ?_⟩
  · -- no lookup fails, since every entry is the position of a terminal
    rw [Grammar.firstSetNames, hx']
    apply Fault.mapM_eq_ok
    intro i hi
    obtain ⟨c, y, w, hy, -, hc, -⟩ := (hmem i).mp hi
    rw [(atIndex_eq_ok_iff hview i c).mpr hc, nameAt_eq hc, name_eq_of_get? hy]
    exact congrArg Except.ok (hg.name_analyze hy)
  · -- entries ascend, and the names ascend with their positions in the view
    rw [List.pairwise_map]
    refine x'.firstSet.pairwise_toList.imp_of_mem fun {i j} hi hj hij => ?_
    obtain ⟨c, y, w, -, -, hc, -⟩ := (hmem i).mp hi
    obtain ⟨d, z, v, -, -, hd, -⟩ := (hmem j).mp hj
    rw [nameAt_eq hc, nameAt_eq hd]
    obtain ⟨hilt, rfl⟩ := List.getElem?_eq_some_iff.mp hc
    obtain ⟨hjlt, rfl⟩ := List.getElem?_eq_some_iff.mp hd
    exact List.pairwise_iff_getElem.mp (pairwise_byName hg.names) i j hilt hjlt hij
  · -- names and entries go back and forth through the positions in the view
    intro n
    rw [List.mem_map]
    constructor
    · rintro ⟨i, hi, rfl⟩
      obtain ⟨c, y, w, hy, hterminal, hc, hderives⟩ := (hmem i).mp hi
      exact ⟨c, y, w, hy, hterminal, ((nameAt_eq hc).trans (name_eq_of_get? hy)).symm, hderives⟩
    · rintro ⟨c, y, w, hy, hterminal, rfl, hderives⟩
      have hc := getElem?_byName_iff.mpr ⟨lt_size_of_get? hy, rfl⟩
      exact ⟨_, (hmem _).mpr ⟨c, y, w, hy, hterminal, hc, hderives⟩,
        (nameAt_eq hc).trans (name_eq_of_get? hy)⟩

/-- The first-set of a terminal stays empty. -/
theorem firstSet_analyze_of_terminal (hg : Fresh g) {s : SymbolId} {x' : Symbol}
    (hx' : g.analyze.table.get? s = some x') (hterminal : x'.isTerminal = true) :
    x'.firstSet.toList = [] := by
  obtain ⟨z, hz, hkind, -⟩ := exists_get?_of_withoutFirstSets hg.erase_analyze hx'
  have hzterminal : z.isTerminal = true := by rwa [Symbol.isTerminal, hkind]
  rw [List.eq_nil_iff_forall_not_mem]
  intro i hi
  rw [BitSet.mem_toList] at hi
  exact hg.ready.not_bears_of_terminal hz hzterminal ⟨x', hx', hi⟩

end Fresh

end YaccGrammar
