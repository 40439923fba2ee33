import YaccGrammar.Analysis.FirstSet
import YaccGrammar.Proofs.Analysis.Derivation
import YaccGrammar.Proofs.Analysis.Nullable
import YaccGrammar.Proofs.Analysis.Passes
import YaccGrammar.Proofs.BitSet
import YaccGrammar.Proofs.Symbol.Table

/-!
# First-sets hold what can come first

The first-sets that the analysis computes are compared with derivations. The marks of this analysis
are positions: a symbol bears the position `i` when `i` is in its first-set.

A visit passes over an occurrence of its own left-hand side without adding anything. That loses
nothing, for what it would add is what is being added to.

## Main statements

- `contains_collectFirst`: what a right-hand side offers to its left-hand side.
- `Ready.begins_of_bears`: every entry is backed by a derivation.
- `Ready.bears_of_begins`: every derivation that begins with a terminal leaves an entry.
-/

namespace YaccGrammar.Analysis

open SymbolTable

/-! ## Entries as marks -/

/-- Position `i` is in the first-set of a symbol. -/
def Bears (i : Nat) (t : SymbolTable) (s : SymbolId) : Prop :=
  ∃ x, t.get? s = some x ∧ x.firstSet.contains i = true

/-- What a right-hand side offers to the symbol `lhs`: the position of a terminal, or a position
that another symbol bears, behind symbols that are nullable. -/
def Offers (i : Nat) (t : SymbolTable) (lhs : SymbolId) : List SymbolId → Prop
  | [] => False
  | s :: rhs => ∃ x, t.get? s = some x ∧
      (x.isTerminal = true ∧ x.index = i ∨
        x.isTerminal = false ∧ s ≠ lhs ∧ x.firstSet.contains i = true ∨
        x.isTerminal = false ∧ x.nullable = true ∧ Offers i t lhs rhs)

/-- The table without its first-sets. -/
def withoutFirstSets (t : SymbolTable) : SymbolTable :=
  t.mapSymbols fun x => { x with firstSet := {} }

/-- What a right-hand side offers to its left-hand side is collected, and nothing else is. -/
theorem contains_collectFirst (t : SymbolTable) (lhs : SymbolId) (i : Nat) (rhs : List SymbolId)
    (found : BitSet) :
    (collectFirst t lhs rhs found).contains i = true ↔
      found.contains i = true ∨ Offers i t lhs rhs := by
  induction rhs generalizing found with
  | nil => simp [collectFirst, Offers]
  | cons s rhs ih =>
    simp only [collectFirst, Offers]
    cases hx : t.get? s with
    | none => simp
    | some x =>
      simp only [Option.some.injEq, exists_eq_left']
      by_cases hterminal : x.isTerminal = true
      · -- a terminal offers its position and ends the scan
        simp only [hterminal, if_true, BitSet.contains_insert, Bool.true_eq_false, false_and,
          or_false, true_and]
        rw [or_comm, @eq_comm _ i]
      · have hnonterminal : x.isTerminal = false := Bool.not_eq_true _ ▸ hterminal
        simp only [hnonterminal, Bool.false_eq_true, if_false, false_and, true_and, false_or]
        -- the scan leaves out the first-set of the left-hand side itself
        by_cases hs : s = lhs
        · by_cases hnullable : x.nullable = true
          · simp [hs, hnullable, ih]
          · simp [hs, hnullable]
        · by_cases hnullable : x.nullable = true
          · simp [hs, hnullable, ih, BitSet.contains_union, or_assoc]
          · simp [hs, hnullable, BitSet.contains_union]

/-- What a rule adds is what its right-hand side offers. -/
theorem contains_ruleFirst (t : SymbolTable) (r : Rule) (i : Nat) :
    (ruleFirst t r).contains i = true ↔ Offers i t r.lhs r.rhs := by
  simp [ruleFirst, contains_collectFirst]

/-- Tables that differ in their first-sets have the same symbols otherwise. -/
theorem exists_get?_of_withoutFirstSets {t t' : SymbolTable}
    (h : withoutFirstSets t = withoutFirstSets t') {s : SymbolId} {x : Symbol}
    (hx : t.get? s = some x) :
    ∃ y, t'.get? s = some y ∧ y.kind = x.kind ∧ y.nullable = x.nullable ∧ y.index = x.index ∧
      y.name = x.name := by
  have hs : (t.get? s).map (fun x => { x with firstSet := {} }) =
      (t'.get? s).map fun x => { x with firstSet := {} } := by
    rw [← get?_mapSymbols, ← get?_mapSymbols]
    exact congrArg (·.get? s) h
  rw [hx] at hs
  obtain ⟨y, hy, hxy⟩ := Option.map_eq_some_iff.mp hs.symm
  refine ⟨y, hy, ?_⟩
  simp only [Symbol.mk.injEq] at hxy
  exact ⟨hxy.2.1, hxy.2.2.2.2.2.1, hxy.2.2.2.2.2.2.2.1, hxy.1⟩

/-- A right-hand side offers no less where more marks are. -/
theorem offers_of_withoutFirstSets {t t' : SymbolTable} {i : Nat}
    (h : withoutFirstSets t = withoutFirstSets t') (hmarks : ∀ s, Bears i t s → Bears i t' s)
    {lhs : SymbolId} {rhs : List SymbolId} (hoffers : Offers i t lhs rhs) :
    Offers i t' lhs rhs := by
  induction rhs with
  | nil => exact hoffers
  | cons s rhs ih =>
    obtain ⟨x, hx, hcases⟩ := hoffers
    obtain ⟨y, hy, hkind, hnullable, hindex, -⟩ := exists_get?_of_withoutFirstSets h hx
    have hterminal : y.isTerminal = x.isTerminal := Symbol.isTerminal_congr hkind
    refine ⟨y, hy, ?_⟩
    rw [hterminal, hindex, hnullable]
    -- a terminal, an entry of another symbol, or what comes behind a nullable one
    rcases hcases with hleaf | ⟨hx', hne, hcontains⟩ | ⟨hx', hnull, hrest⟩
    · exact Or.inl hleaf
    · obtain ⟨y', hy', hcontains'⟩ := hmarks s ⟨x, hx, hcontains⟩
      rw [hy] at hy'
      cases hy'
      exact Or.inr (Or.inl ⟨hx', hne, hcontains'⟩)
    · exact Or.inr (Or.inr ⟨hx', hnull, ih hrest⟩)

/-- A visit puts on its left-hand side what its right-hand side offers. -/
theorem bears_visitFirst (i : Nat) (t : SymbolTable) (r : Rule) (s : SymbolId)
    (h : r.lhs < t.size) :
    Bears i (visitFirst t r).2 s ↔ Bears i t s ∨ s = r.lhs ∧ Offers i t r.lhs r.rhs := by
  obtain ⟨x, hx⟩ := exists_get?_of_lt h
  simp only [visitFirst, hx, Bears, get?_modify]
  by_cases hs : s = r.lhs
  · subst hs
    simp [hx, BitSet.contains_union, contains_ruleFirst]
  · simp [hs]

/-- Visits for first-sets are visits of a marking, so what is known of those holds of them. -/
theorem firstMarking :
    Marking visitFirst Bears (fun i t r => Offers i t r.lhs r.rhs) withoutFirstSets where
  size_erase t := size_mapSymbols _ t
  erase_visit t r := by
    unfold visitFirst
    split
    · rfl
    · exact mapSymbols_modify (fun _ => by rfl) t r.lhs
  marked_visit i t r s h := bears_visitFirst i t r s h
  changed_visit t r h := by
    obtain ⟨x, hx⟩ := exists_get?_of_lt h
    simp only [visitFirst, hx, BitSet.union_changed_iff, contains_ruleFirst, Bears,
      Option.some.injEq, exists_eq_left', Bool.not_eq_true]
  adds_congr i t t' r h hmarks :=
    ⟨offers_of_withoutFirstSets h fun s => (hmarks s).mp,
      offers_of_withoutFirstSets h.symm fun s => (hmarks s).mpr⟩

/-! ## Grammars that are ready for first-sets -/

/-- What the computation of the first-sets of `g'` relies on, so that they describe the derivations
of `g`: the grammars have the same productions, the flags of `g'` are exact, rules and flags belong
to nonterminals, and no first-set has been filled before. -/
structure Ready (g g' : Grammar) : Prop where
  inRange : g'.InRange
  rule : ∀ r' ∈ g'.rules, ∃ r ∈ g.rules, r.lhs = r'.lhs ∧ r.rhs = r'.rhs
  exists_rule : ∀ r ∈ g.rules, ∃ r' ∈ g'.rules, r'.lhs = r.lhs ∧ r'.rhs = r.rhs
  nullable : ∀ s, g'.table.isNullable s = true ↔ g.Derives [s] []
  nonterminal : ∀ s x rhs, g'.table.get? s = some x → g.Production s rhs → x.isTerminal = false
  notBears : ∀ i s, ¬ Bears i g'.table s

/-- A form derives one that begins with the terminal at position `i`. -/
def Begins (g g' : Grammar) (i : Nat) (u : List SymbolId) : Prop :=
  ∃ c x w, g'.table.get? c = some x ∧ x.isTerminal = true ∧ x.index = i ∧ g.Derives u (c :: w)

/-- What a form begins with is not changed by what follows it. -/
theorem Begins.append {g g' : Grammar} {i : Nat} {u : List SymbolId} (h : Begins g g' i u)
    (v : List SymbolId) : Begins g g' i (u ++ v) := by
  obtain ⟨c, x, w, hx, hterminal, hindex, hderives⟩ := h
  exact ⟨c, x, w ++ v, hx, hterminal, hindex, hderives.append .refl⟩

/-- A form begins with whatever one begins with that it derives. -/
theorem Begins.of_derives {g g' : Grammar} {i : Nat} {u v : List SymbolId} (h : Begins g g' i v)
    (huv : g.Derives u v) : Begins g g' i u := by
  obtain ⟨c, x, w, hx, hterminal, hindex, hderives⟩ := h
  exact ⟨c, x, w, hx, hterminal, hindex, huv.trans hderives⟩

namespace Ready

variable {g g' : Grammar} {t : SymbolTable}

/-- The rules of the prepared grammar are productions of the grammar. -/
theorem production_of_mem (h : Ready g g') {r' : Rule} (hmem : r' ∈ g'.rules) :
    g.Production r'.lhs r'.rhs := by
  obtain ⟨r, hr, hlhs, hrhs⟩ := h.rule r' hmem
  rw [← hlhs, ← hrhs]
  exact .rule r hr

/-- Of a symbol only the first-set changes. -/
theorem get?_of_erase (ht : withoutFirstSets t = withoutFirstSets g'.table) {s : SymbolId}
    {x : Symbol} (hx : t.get? s = some x) :
    ∃ y, g'.table.get? s = some y ∧ y.isTerminal = x.isTerminal ∧ y.index = x.index ∧
      y.nullable = x.nullable := by
  obtain ⟨y, hy, hkind, hnullable, hindex, -⟩ := exists_get?_of_withoutFirstSets ht hx
  exact ⟨y, hy, Symbol.isTerminal_congr hkind, hindex, hnullable⟩

/-! ## Soundness -/

/-- What a right-hand side offers is backed by derivations if all entries are. -/
theorem begins_of_offers (h : Ready g g') (ht : withoutFirstSets t = withoutFirstSets g'.table)
    {i : Nat} (hbacked : ∀ s, Bears i t s → Begins g g' i [s]) {lhs : SymbolId}
    {rhs : List SymbolId} (hoffers : Offers i t lhs rhs) : Begins g g' i rhs := by
  induction rhs with
  | nil => exact hoffers.elim
  | cons s rhs ih =>
    obtain ⟨x, hx, hcases⟩ := hoffers
    obtain ⟨y, hy, hterminal, hindex, hnullable⟩ := get?_of_erase ht hx
    rcases hcases with ⟨hx', hi⟩ | ⟨-, -, hcontains⟩ | ⟨-, hnull, hrest⟩
    · exact ⟨s, y, rhs, hy, hterminal.trans hx', hindex.trans hi, .refl⟩
    · exact (hbacked s ⟨x, hx, hcontains⟩).append rhs
    · -- the first symbol vanishes, and what comes next begins with the terminal
      have hflag : g'.table.isNullable s = true := by
        simp [isNullable, hy, hnullable, hnull]
      have hvanish : g.Derives ([s] ++ rhs) ([] ++ rhs) :=
        ((h.nullable s).mp hflag).append .refl
      exact (ih hrest).of_derives hvanish

/-- Every entry is backed by a derivation. -/
theorem begins_of_bears (h : Ready g g') {i : Nat} {s : SymbolId}
    (hbears : Bears i (computeFirstSets g').2.table s) : Begins g g' i [s] := by
  have hbacked : withoutFirstSets (computeFirstSets g').2.table = withoutFirstSets g'.table ∧
      ∀ i s, Bears i (computeFirstSets g').2.table s → Begins g g' i [s] := by
    -- the visits keep this: all entries so far are backed
    apply settle_induction (P := fun t => withoutFirstSets t = withoutFirstSets g'.table ∧
      ∀ i s, Bears i t s → Begins g g' i [s])
    · rintro t r hr ⟨ht, ih⟩
      have hsize : t.size = g'.table.size := by
        rw [← firstMarking.size_erase, ht, firstMarking.size_erase]
      have hlhs : r.lhs < t.size := by
        rw [hsize]
        exact (h.inRange r hr).1
      refine ⟨(firstMarking.erase_visit t r).trans ht, ?_⟩
      intro i s hs
      rcases (bears_visitFirst i t r s hlhs).mp hs with hold | ⟨rfl, hoffers⟩
      · exact ih i s hold
      · have hrhs := begins_of_offers h ht (ih i) hoffers
        exact hrhs.of_derives (.single (Grammar.rewrites_of_production (h.production_of_mem hr)))
    · exact ⟨rfl, fun i s hs => absurd hs (h.notBears i s)⟩
  exact hbacked.2 i s hbears

/-! ## Completeness -/

/-- Position `i` can be read off a form: the form begins with its terminal or with a symbol that
bears it, behind symbols that are nullable. -/
def Leads (i : Nat) (t : SymbolTable) : List SymbolId → Prop
  | [] => False
  | s :: u => ∃ x, t.get? s = some x ∧
      (x.isTerminal = true ∧ x.index = i ∨
        x.isTerminal = false ∧ (x.firstSet.contains i = true ∨ x.nullable = true ∧ Leads i t u))

/-- What can be read off two forms side by side can be read off the first, or that one vanishes and
it can be read off the second. -/
theorem leads_append {i : Nat} {t : SymbolTable} {u v : List SymbolId} (h : Leads i t (u ++ v)) :
    Leads i t u ∨ (∀ s ∈ u, t.isNullable s = true) ∧ Leads i t v := by
  induction u with
  | nil =>
    refine Or.inr ⟨?_, h⟩
    intro s hs
    cases hs
  | cons s u ih =>
    obtain ⟨x, hx, hleaf | ⟨hterminal, hcontains | ⟨hnull, hrest⟩⟩⟩ := h
    · -- the first symbol shows the position, so the first form does
      exact Or.inl ⟨x, hx, Or.inl hleaf⟩
    · exact Or.inl ⟨x, hx, Or.inr ⟨hterminal, Or.inl hcontains⟩⟩
    · -- the first symbol is nullable
      rcases ih hrest with hu | ⟨hall, hv⟩
      · exact Or.inl ⟨x, hx, Or.inr ⟨hterminal, Or.inr ⟨hnull, hu⟩⟩⟩
      · refine Or.inr ⟨?_, hv⟩
        intro s' hs'
        rcases List.mem_cons.mp hs' with rfl | hs'
        · simp [isNullable, hx, hnull]
        · exact hall s' hs'

/-- A right-hand side that shows a position offers it, unless its left-hand side bears it
already. -/
theorem offers_or_bears_of_leads {i : Nat} {t : SymbolTable} (lhs : SymbolId)
    {rhs : List SymbolId} (h : Leads i t rhs) : Offers i t lhs rhs ∨ Bears i t lhs := by
  induction rhs with
  | nil => exact h.elim
  | cons s rhs ih =>
    obtain ⟨x, hx, hleaf | ⟨hterminal, hcontains | ⟨hnull, hrest⟩⟩⟩ := h
    · exact Or.inl ⟨x, hx, Or.inl hleaf⟩
    · -- only an occurrence of the left-hand side itself is passed over
      by_cases hs : s = lhs
      · subst hs
        exact Or.inr ⟨x, hx, hcontains⟩
      · exact Or.inl ⟨x, hx, Or.inr (Or.inl ⟨hterminal, hs, hcontains⟩)⟩
    · rcases ih hrest with hoffers | hbears
      · exact Or.inl ⟨x, hx, Or.inr (Or.inr ⟨hterminal, hnull, hoffers⟩)⟩
      · exact Or.inr hbears

/-- What can be read off a form after a step could be read off before. -/
theorem leads_of_rewrites (h : Ready g g') {i : Nat} {u v : List SymbolId}
    (hstep : g.Rewrites u v) (hv : Leads i (computeFirstSets g').2.table v) :
    Leads i (computeFirstSets g').2.table u := by
  have herase := firstMarking.erase_settleRules fun r hr => (h.inRange r hr).1
  cases hstep with
  | @replace a b s rhs hprod =>
    -- in front of the replaced symbol both forms are the same
    induction a with
    | cons s' a ih =>
      obtain ⟨x, hx, hleaf | ⟨hterminal, hcontains | ⟨hnull, hrest⟩⟩⟩ := hv
      · exact ⟨x, hx, Or.inl hleaf⟩
      · exact ⟨x, hx, Or.inr ⟨hterminal, Or.inl hcontains⟩⟩
      · exact ⟨x, hx, Or.inr ⟨hterminal, Or.inr ⟨hnull, ih hrest⟩⟩⟩
    | nil =>
      rcases leads_append hv with hrhs | ⟨hall, hb⟩
      · -- the symbol bears the position, since its rules offer it
        have hbears : Bears i (computeFirstSets g').2.table s := by
          rcases offers_or_bears_of_leads s hrhs with hoffers | hbears
          · cases hprod with
            | rule r hmem =>
              obtain ⟨r', hmem', hlhs, hrhs'⟩ := h.exists_rule r hmem
              rw [← hlhs] at hoffers ⊢
              rw [← hrhs'] at hoffers
              exact firstMarking.settleRules_closed (fun r hr => (h.inRange r hr).1) hmem' hoffers
            | flagged s _ => exact hoffers.elim
          · exact hbears
        obtain ⟨x, hx, hcontains⟩ := hbears
        obtain ⟨y, hy, hterminal, -, -⟩ := get?_of_erase herase hx
        have hnonterminal : x.isTerminal = false := by
          rw [← hterminal]
          exact h.nonterminal s y rhs hy hprod
        exact ⟨x, hx, Or.inr ⟨hnonterminal, Or.inl hcontains⟩⟩
      · -- the right-hand side vanishes, and so does the symbol
        have hvanish : ∀ s ∈ rhs, g.Derives [s] [] := by
          intro s' hs'
          obtain ⟨x, hx, hnull⟩ := (Option.any_eq_true _ _).mp (hall s' hs')
          obtain ⟨y, hy, -, -, hnullable⟩ := get?_of_erase herase hx
          apply (h.nullable s').mp
          simp [isNullable, hy, hnullable, hnull]
        have hs : g.Derives [s] [] :=
          .head (Grammar.rewrites_of_production hprod) (Grammar.derives_nil_of_forall hvanish)
        obtain ⟨y, hy, hnull⟩ := (Option.any_eq_true _ _).mp ((h.nullable s).mpr hs)
        obtain ⟨x, hx, hkind, hnullable, -, -⟩ := exists_get?_of_withoutFirstSets herase.symm hy
        have hnonterminal : x.isTerminal = false := by
          rw [Symbol.isTerminal, hkind, ← Symbol.isTerminal]
          exact h.nonterminal s y rhs hy hprod
        exact ⟨x, hx, Or.inr ⟨hnonterminal, Or.inr ⟨hnullable.trans hnull, hb⟩⟩⟩

/-- What can be read off a form at the end of a derivation could be read off at its beginning. -/
theorem leads_of_derives (h : Ready g g') {i : Nat} {u v : List SymbolId}
    (hderives : g.Derives u v) (hv : Leads i (computeFirstSets g').2.table v) :
    Leads i (computeFirstSets g').2.table u := by
  induction hderives using Relation.ReflTransGen.head_induction_on with
  | refl => exact hv
  | head hstep _ ih => exact h.leads_of_rewrites hstep ih

/-- Every derivation that begins with a terminal leaves an entry. -/
theorem bears_of_begins (h : Ready g g') {i : Nat} {s : SymbolId} {x : Symbol}
    (hx : g'.table.get? s = some x) (hnonterminal : x.isTerminal = false)
    (hbegins : Begins g g' i [s]) : Bears i (computeFirstSets g').2.table s := by
  have herase := firstMarking.erase_settleRules fun r hr => (h.inRange r hr).1
  obtain ⟨c, y, w, hy, hterminal, hindex, hderives⟩ := hbegins
  obtain ⟨y', hy', hkind, -, hindex', -⟩ := exists_get?_of_withoutFirstSets herase.symm hy
  have hend : Leads i (computeFirstSets g').2.table (c :: w) := by
    refine ⟨y', hy', Or.inl ⟨?_, hindex'.trans hindex⟩⟩
    rw [Symbol.isTerminal, hkind]
    exact hterminal
  -- the position can be read off the symbol itself, which is no terminal and has nothing behind it
  obtain ⟨x', hx', hcases⟩ := h.leads_of_derives hderives hend
  obtain ⟨z, hz, hkind', -, -⟩ := get?_of_erase herase hx'
  rw [hx] at hz
  cases hz
  rcases hcases with ⟨hx'', -⟩ | ⟨-, hcontains | ⟨-, hnone⟩⟩
  · rw [← hkind', hnonterminal] at hx''
    cases hx''
  · exact ⟨x', hx', hcontains⟩
  · exact hnone.elim

/-- The first-set of a nonterminal holds the positions of the terminals that it can begin with. -/
theorem bears_iff (h : Ready g g') {i : Nat} {s : SymbolId} {x : Symbol}
    (hx : g'.table.get? s = some x) (hnonterminal : x.isTerminal = false) :
    Bears i (computeFirstSets g').2.table s ↔ Begins g g' i [s] :=
  ⟨h.begins_of_bears, h.bears_of_begins hx hnonterminal⟩

/-- Terminals are given no entries: nothing but the terminal itself can be derived from it. -/
theorem not_bears_of_terminal (h : Ready g g') {i : Nat} {s : SymbolId} {x : Symbol}
    (hx : g'.table.get? s = some x) (hterminal : x.isTerminal = true) :
    ¬ Bears i (computeFirstSets g').2.table s := by
  have hnone : withoutFirstSets (computeFirstSets g').2.table = withoutFirstSets g'.table ∧
      ¬ Bears i (computeFirstSets g').2.table s := by
    -- every visit adds to its left-hand side only
    apply settle_induction (P := fun t => withoutFirstSets t = withoutFirstSets g'.table ∧
      ¬ Bears i t s)
    · rintro t r hr ⟨ht, ih⟩
      have hsize : t.size = g'.table.size := by
        rw [← firstMarking.size_erase, ht, firstMarking.size_erase]
      have hlhs : r.lhs < t.size := by
        rw [hsize]
        exact (h.inRange r hr).1
      refine ⟨(firstMarking.erase_visit t r).trans ht, ?_⟩
      intro hbears
      rcases (bears_visitFirst i t r s hlhs).mp hbears with hold | ⟨rfl, -⟩
      · exact ih hold
      · -- a left-hand side is no terminal
        have hnonterminal := h.nonterminal r.lhs x r.rhs hx (h.production_of_mem hr)
        rw [hterminal] at hnonterminal
        cases hnonterminal
    · exact ⟨rfl, h.notBears i s⟩
  exact hnone.2

end Ready

end YaccGrammar.Analysis
