import YaccGrammar.Proofs.Analysis.Frame
import YaccGrammar.Proofs.Analysis.Room
import YaccGrammar.Proofs.Guarded.Report
import YaccGrammar.Proofs.Symbol.Consistent

/-!
# Intact grammars

A grammar is intact when its table is consistent and roomy, every number in it is that of a symbol
or of a rule, and its rules are chained. The empty grammar is intact. Whatever is done to an intact
grammar, with numbers that it knows, meets no fault and leaves it intact.

## Main statements

- `Intact.intern`, `Intact.addRule`, `Intact.setRule` and so on: what each operation keeps.
- `Intact.analyze`: the analysis keeps it, since each of its parts does.
-/

namespace YaccGrammar

open Analysis SymbolTable

/-! ## Tables -/

namespace SymbolTable

variable {t t' : SymbolTable}

/-- A symbol that is enriched was there before. -/
theorem Enriched.exists_get? (h : t.Enriched t') {id : SymbolId} {x' : Symbol}
    (hx' : t'.get? id = some x') : ∃ x, t.get? id = some x ∧ x.Enriched x' := by
  obtain ⟨x, hx⟩ := exists_get?_of_lt (h.size ▸ lt_size_of_get? hx')
  obtain ⟨y, hy, hxy⟩ := h.symbol id x hx
  rw [hx'] at hy
  cases hy
  exact ⟨x, hx, hxy⟩

/-- A symbol that is enriched knows the same rule. -/
theorem Enriched.firstRule (h : t.Enriched t') {id : SymbolId} {x' : Symbol}
    (hx' : t'.get? id = some x') : ∃ x, t.get? id = some x ∧ x'.firstRule = x.firstRule := by
  obtain ⟨x, hx, hxx'⟩ := h.exists_get? hx'
  exact ⟨x, hx, hxx'.firstRule⟩

/-- A table whose symbols are enriched has the same names. -/
theorem Enriched.names (h : t.Enriched t') : t'.names = t.names := by
  apply List.ext_getElem
  · rw [length_names, length_names, h.size]
  · intro id hid hid'
    -- both tables have a symbol of this number, and it has kept its name
    obtain ⟨x, hx⟩ := exists_get?_of_lt (by simpa using hid')
    obtain ⟨x', hx', hxx'⟩ := h.symbol id x hx
    rw [← Option.some_inj, ← List.getElem?_eq_getElem, ← List.getElem?_eq_getElem, names_getElem?,
      names_getElem?, hx, hx', Option.map_some, Option.map_some, hxx'.name]

namespace Consistent

/-- A symbol that keeps its name, its kind and its position can be changed. -/
theorem modify (ht : t.Consistent) (id : SymbolId) {f : Symbol → Symbol}
    (hname : ∀ x, (f x).name = x.name) (hkind : ∀ x, (f x).kind = x.kind)
    (hindex : ∀ x, (f x).index = x.index) : (t.modify id f).Consistent := by
  have hnames : (t.modify id f).names = t.names := names_modify hname t id
  have hkinds : (t.modify id f).kinds = t.kinds := map_symbols_modify hkind t id
  constructor
  · exact hnames ▸ ht.nodup
  · exact hkinds ▸ ht.terminals
  · exact hkinds ▸ ht.nonterminals
  · rw [byName_congr hnames]
    exact ht.view
  · intro hfresh s x hx
    rw [byName_congr hnames]
    rw [get?_modify] at hx
    split at hx
    · -- the changed symbol has kept its position
      obtain ⟨y, hy, rfl⟩ := Option.map_eq_some_iff.mp hx
      rw [hindex]
      exact ht.index hfresh s y hy
    · exact ht.index hfresh s x hx

/-- A visit that looks for nullable symbols keeps a table consistent. -/
theorem visitNullable (ht : t.Consistent) (r : Rule) :
    (Analysis.visitNullable t r).2.Consistent := by
  unfold Analysis.visitNullable
  split
  · exact ht
  · exact ht.modify r.lhs (fun _ => rfl) (fun _ => rfl) fun _ => rfl

/-- A visit that looks for first-sets keeps a table consistent. -/
theorem visitFirst (ht : t.Consistent) (r : Rule) : (Analysis.visitFirst t r).2.Consistent := by
  unfold Analysis.visitFirst
  split
  · exact ht
  · exact ht.modify r.lhs (fun _ => rfl) (fun _ => rfl) fun _ => rfl

/-- A loop keeps a table consistent if each of its visits does. -/
theorem settleRules {visit : SymbolTable → Rule → Bool × SymbolTable}
    (hvisit : ∀ t r, SymbolTable.Consistent t → (visit t r).2.Consistent) {g : Grammar}
    (hg : g.table.Consistent) : (Analysis.settleRules visit g).2.table.Consistent :=
  settle_induction (fun t r _ ht => hvisit t r ht) _ hg

end Consistent

end SymbolTable

/-! ## Numbers and chains -/

section Sound

variable {g g' : Grammar}

/-- Numbers stay good while no symbol is taken away. -/
theorem Guarded.Sound.of_size (hg : Guarded.Sound g) (hrules : g'.rules = g.rules)
    (hstart : g'.declaredStart = g.declaredStart) (hsize : g.table.size ≤ g'.table.size)
    (hchained : g'.Chained) : Guarded.Sound g' where
  inRange r hr := by
    obtain ⟨hlhs, hrhs⟩ := hg.inRange r (hrules ▸ hr)
    exact ⟨hlhs.trans_le hsize, fun id hid => (hrhs id hid).trans_le hsize⟩
  prec r hr id hid := (hg.prec r (hrules ▸ hr) id hid).trans_le hsize
  start id hid := (hg.start id (hstart ▸ hid)).trans_le hsize
  chained := hchained

/-- Chains depend on the rules that symbols know, which enrichment leaves as they are. -/
theorem Grammar.Chained.enriched (hg : g.Chained) {t : SymbolTable} (h : g.table.Enriched t) :
    ({ g with table := t } : Grammar).Chained :=
  hg.of_table rfl h.size.ge fun _ _ hx => .inl (h.firstRule hx)

end Sound

/-! ## Grammars -/

namespace Grammar

/-- The table is in order, and so are all numbers. -/
structure Intact (g : Grammar) : Prop where
  consistent : g.table.Consistent
  roomy : g.table.Roomy
  sound : Guarded.Sound g

/-- The empty grammar is intact. -/
theorem intact_empty : Intact {} where
  consistent := consistent_empty
  roomy := .empty
  sound := by
    constructor
    · exact nofun
    · exact nofun
    · exact nofun
    · constructor <;> exact nofun

/-- Writes what a symbol is besides its name, its kind and what the analysis finds out. -/
def setSymbol (g : Grammar) (id : SymbolId) (nullable : Bool) (precedence : Option Nat)
    (assoc : Assoc) (tag : Option String) : Grammar :=
  g.modifyTable (·.modify id fun x => { x with nullable, precedence, assoc, tag })

/-- Writes what a rule is besides its left-hand side and its place in a chain. -/
def setRule (g : Grammar) (id : RuleId) (rhs : List SymbolId) (code : Option CodeBlock)
    (precSymbol : Option SymbolId) : Grammar :=
  g.modifyRule id fun r => { r with rhs, code, precSymbol }

namespace Intact

variable {g : Grammar}

/-! ### Symbols -/

/-- A new name keeps a grammar intact. -/
theorem intern (hg : g.Intact) (n : String) : (g.intern n).2.Intact where
  consistent := hg.consistent.insert n
  roomy := hg.roomy.insert n
  sound := hg.sound.of_size rfl rfl (size_le_insert _ n) (hg.sound.chained.edit (.intern g n))

/-- A new kind of a known symbol keeps a grammar intact. -/
theorem setKind (hg : g.Intact) {id : SymbolId} (hid : id < g.table.size) (kind : SymbolKind) :
    (g.modifyTable (·.setKind id kind)).Intact where
  consistent := by
    -- the counts are moved from the kind that the symbol had
    obtain ⟨x, hx⟩ := exists_get?_of_lt hid
    exact hg.consistent.setKind hx kind
  roomy := hg.roomy.setKind id kind
  sound := hg.sound.of_size rfl rfl (size_setKind _ id kind).ge
    (hg.sound.chained.edit (.kind g id kind))

/-- What is declared of a symbol keeps a grammar intact. -/
theorem setSymbol (hg : g.Intact) (id : SymbolId) (nullable : Bool) (precedence : Option Nat)
    (assoc : Assoc) (tag : Option String) :
    (g.setSymbol id nullable precedence assoc tag).Intact where
  consistent := hg.consistent.modify id (fun _ => rfl) (fun _ => rfl) fun _ => rfl
  roomy := hg.roomy.modify id (fun _ => rfl) fun _ => rfl
  sound := hg.sound.of_size rfl rfl (size_modify _ id _).ge
    (hg.sound.chained.edit (.symbol g id (fun _ => rfl) fun _ => rfl))

/-! ### Rules -/

/-- A new rule of a known symbol keeps a grammar intact. -/
theorem addRule (hg : g.Intact) {lhs : SymbolId} (hlhs : lhs < g.table.size) (line : Nat) :
    (g.addRule lhs line).2.Intact where
  consistent := hg.consistent.modify lhs (fun _ => rfl) (fun _ => rfl) fun _ => rfl
  roomy := hg.roomy.modify lhs (fun _ => rfl) fun _ => rfl
  sound := by
    have hsize : (g.addRule lhs line).2.table.size = g.table.size := size_modify ..
    constructor
    case chained => exact hg.sound.chained.addRule hlhs line
    case start => exact hsize ▸ hg.sound.start
    -- the new rule has neither a right-hand side nor a precedence
    case inRange =>
      unfold InRange
      rw [hsize]
      exact List.forall_mem_append.mpr ⟨hg.sound.inRange, by simpa using hlhs⟩
    case prec =>
      rw [hsize]
      exact List.forall_mem_append.mpr ⟨hg.sound.prec, by simp⟩

/-- What is written into a rule keeps a grammar intact, if all of its symbols are known. -/
theorem setRule (hg : g.Intact) (id : RuleId) {rhs : List SymbolId}
    (hrhs : ∀ s ∈ rhs, s < g.table.size) (code : Option CodeBlock) {precSymbol : Option SymbolId}
    (hprec : ∀ s, precSymbol = some s → s < g.table.size) :
    (g.setRule id rhs code precSymbol).Intact where
  consistent := hg.consistent
  roomy := hg.roomy
  sound := by
    -- each rule is one that was there before, or one that was written
    have hrule (r' : Rule) (hr' : r' ∈ (g.setRule id rhs code precSymbol).rules) :
        ∃ r ∈ g.rules, r' = r ∨ r' = { r with rhs, code, precSymbol } := by
      obtain ⟨k, hk⟩ := List.getElem?_of_mem hr'
      simp only [Grammar.setRule, Grammar.modifyRule, List.getElem?_modify] at hk
      obtain ⟨r, hr, rfl⟩ := Option.map_eq_some_iff.mp hk
      refine ⟨r, List.mem_of_getElem? hr, ?_⟩
      split
      · exact .inr rfl
      · exact .inl rfl
    constructor
    case chained => exact hg.sound.chained.modifyRule id (fun _ => rfl) fun _ => rfl
    case start => exact hg.sound.start
    case inRange =>
      intro r' hr'
      obtain ⟨r, hr, rfl | rfl⟩ := hrule r' hr'
      · exact hg.sound.inRange r' hr
      · exact ⟨(hg.sound.inRange r hr).1, hrhs⟩
    case prec =>
      intro r' hr'
      obtain ⟨r, hr, rfl | rfl⟩ := hrule r' hr'
      · exact hg.sound.prec r' hr
      · exact hprec

/-- Codes may be anything. -/
theorem setCodes (hg : g.Intact) {declaredStart : Option SymbolId}
    (hstart : ∀ s, declaredStart = some s → s < g.table.size)
    (importCode unionCode trailingCode : Option CodeBlock) :
    ({ g with declaredStart, importCode, unionCode, trailingCode } : Grammar).Intact where
  consistent := hg.consistent
  roomy := hg.roomy
  sound := ⟨hg.sound.inRange, hg.sound.prec, hstart,
    hg.sound.chained.of_table rfl (Nat.le_refl _) fun _ x hx => .inl ⟨x, hx, rfl⟩⟩

/-! ### The analysis -/

/-- A table whose symbols are enriched fits the rules that the old table fitted. -/
theorem enriched (hg : g.Intact) {t : SymbolTable} (h : g.table.Enriched t)
    (hconsistent : t.Consistent) (hroomy : t.Roomy) : ({ g with table := t } : Grammar).Intact where
  consistent := hconsistent
  roomy := hroomy
  sound := hg.sound.of_size rfl rfl h.size.ge (hg.sound.chained.enriched h)

/-- Sorting keeps a grammar intact. -/
theorem sorted (hg : g.Intact) : g.sorted.Intact :=
  hg.enriched g.enriched_sorted hg.consistent.sort hg.roomy.sort

/-- Flagging the nullable symbols keeps a grammar intact. -/
theorem computeNullable (hg : g.Intact) : (computeNullable g).2.Intact :=
  hg.enriched (.settleRules .visitNullable g)
    (.settleRules (fun _ r ht => ht.visitNullable r) hg.consistent)
    (roomy_settleRules (fun _ r ht => roomy_visitNullable ht r) hg.roomy)

/-- Giving the rules their precedences keeps a grammar intact. -/
theorem backfillPrecedence (hg : g.Intact) : (backfillPrecedence g).Intact where
  consistent := hg.consistent
  roomy := hg.roomy
  sound := by
    constructor
    case chained =>
      exact hg.sound.chained.of_rules rfl (by simp [Analysis.backfillPrecedence])
        (by simp [Analysis.backfillPrecedence])
    case start => exact hg.sound.start
    case inRange => exact List.forall_mem_map.mpr hg.sound.inRange
    case prec =>
      -- what lends a rule its precedence is in the rule already
      refine List.forall_mem_map.mpr fun r hr id hid => ?_
      exact Guarded.rulePrecedence_lt (hg.sound.inRange r hr).2 (hg.sound.prec r hr) hid

/-- Computing first-sets keeps a grammar intact. -/
theorem computeFirstSets (hg : g.Intact) : (computeFirstSets g).2.Intact :=
  hg.enriched (.settleRules .visitFirst g)
    (.settleRules (fun _ r ht => ht.visitFirst r) hg.consistent)
    (roomy_settleRules (fun _ r ht => roomy_visitFirst ht r) hg.roomy)

/-- All of the analysis in front of the first-sets keeps a grammar intact. -/
theorem prepared (hg : g.Intact) : g.prepared.Intact :=
  hg.sorted.computeNullable.backfillPrecedence

/-- An analysis keeps a grammar intact. -/
theorem analyze (hg : g.Intact) : g.analyze.Intact := hg.prepared.computeFirstSets

end Intact

end Grammar

end YaccGrammar
