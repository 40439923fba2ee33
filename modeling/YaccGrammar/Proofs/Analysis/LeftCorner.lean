import YaccGrammar.Proofs.Analysis.FirstSet

/-!
# First-sets and left corners

First-sets are never emptied, so what is in them in the end depends on what was in them at the
beginning, whether or not that makes sense. A symbol stands at a left corner of another one if it
comes first in one of its rules, behind nonterminals that are flagged nullable. In the end a
first-set holds what the symbols that are reached from corner to corner had in theirs at the
beginning, the positions of the terminals at their corners, and nothing else.

## Main statements

- `offers_iff`: what a right-hand side offers stands at one of its corners.
- `bears_computeFirstSets_iff`: what first-sets hold in the end, for any that there were.
- `Opens.reaches`, `Opens.derives`: flags and rules that are added close no way.
-/

namespace YaccGrammar.Analysis

open SymbolTable

variable {g g' : Grammar} {t t' : SymbolTable} {s s' c : SymbolId} {i : Nat}

/-! ## Corners -/

/-- A nonterminal that is flagged nullable. -/
def Passable (t : SymbolTable) (s : SymbolId) : Prop :=
  ∃ x, t.get? s = some x ∧ x.isTerminal = false ∧ x.nullable = true

/-- The symbol stands at a corner of a right-hand side: it comes first behind symbols that can be
passed. -/
def AtCorner (t : SymbolTable) (rhs : List SymbolId) (c : SymbolId) : Prop :=
  ∃ before after, rhs = before ++ c :: after ∧ ∀ b ∈ before, Passable t b

/-- The symbol `c` stands at a corner of a rule of `s`. -/
def Corner (g : Grammar) (s c : SymbolId) : Prop :=
  ∃ r ∈ g.rules, r.lhs = s ∧ AtCorner g.table r.rhs c

/-- The first symbol stands at a corner, and so do those at corners behind it if it can be passed.
-/
theorem atCorner_cons {b : SymbolId} {rhs : List SymbolId} :
    AtCorner t (b :: rhs) c ↔ c = b ∨ Passable t b ∧ AtCorner t rhs c := by
  constructor
  · rintro ⟨before, after, hrhs, hbefore⟩
    -- either nothing stands in front of the corner, or the first symbol does and is passed
    cases before with
    | nil => exact .inl (List.cons.inj hrhs).1.symm
    | cons b' before =>
      obtain ⟨rfl, rfl⟩ := List.cons.inj hrhs
      rw [List.forall_mem_cons] at hbefore
      exact .inr ⟨hbefore.1, before, after, rfl, hbefore.2⟩
  · rintro (rfl | ⟨hb, before, after, rfl, hbefore⟩)
    · exact ⟨[], rhs, rfl, nofun⟩
    · exact ⟨b :: before, after, rfl, List.forall_mem_cons.mpr ⟨hb, hbefore⟩⟩

/-- What a right-hand side offers stands at one of its corners: the position of a terminal, or one
that another nonterminal bears. -/
theorem offers_iff {lhs : SymbolId} {rhs : List SymbolId} :
    Offers i t lhs rhs ↔ ∃ c x, AtCorner t rhs c ∧ t.get? c = some x ∧
      (x.isTerminal = true ∧ x.index = i ∨
        x.isTerminal = false ∧ c ≠ lhs ∧ x.firstSet.contains i = true) := by
  induction rhs with
  | nil =>
    refine ⟨False.elim, ?_⟩
    rintro ⟨c, x, ⟨before, after, hnil, -⟩, -⟩
    cases before <;> cases hnil
  | cons b rhs ih =>
    simp only [Offers, atCorner_cons, ih]
    constructor
    · -- by the first symbol: it is a terminal, it bears the position, or it is passed
      rintro ⟨x, hx, hleaf | hbears | ⟨hterminal, hnullable, c, y, hcorner, hy, hoffers⟩⟩
      · exact ⟨b, x, .inl rfl, hx, .inl hleaf⟩
      · exact ⟨b, x, .inl rfl, hx, .inr hbears⟩
      · exact ⟨c, y, .inr ⟨⟨x, hx, hterminal, hnullable⟩, hcorner⟩, hy, hoffers⟩
    · rintro ⟨c, y, rfl | ⟨⟨x, hx, hterminal, hnullable⟩, hcorner⟩, hy, hoffers⟩
      · exact ⟨y, hy, hoffers.imp id .inl⟩
      · exact ⟨x, hx, .inr (.inr ⟨hterminal, hnullable, c, y, hcorner, hy, hoffers⟩)⟩

/-! ## From corner to corner -/

/-- Position `i` is that of a terminal at a corner of the symbol. -/
def Starts (g : Grammar) (i : Nat) (s : SymbolId) : Prop :=
  ∃ c x, Corner g s c ∧ g.table.get? c = some x ∧ x.isTerminal = true ∧ x.index = i

/-- A nonterminal stands at a corner of the symbol. -/
def Expands (g : Grammar) (s c : SymbolId) : Prop :=
  Corner g s c ∧ ∃ x, g.table.get? c = some x ∧ x.isTerminal = false

/-- One symbol is reached from the other one through corners. -/
def Reaches (g : Grammar) : SymbolId → SymbolId → Prop := Relation.ReflTransGen (Expands g)

/-- A position that belongs to the first-set of the symbol: a symbol that is reached from it bears
the position from the beginning, or has the terminal at one of its corners. -/
def Inherits (g : Grammar) (i : Nat) (s : SymbolId) : Prop :=
  ∃ s', Reaches g s s' ∧ (Bears i g.table s' ∨ Starts g i s')

/-- A symbol inherits what it bears. -/
theorem Inherits.of_bears (h : Bears i g.table s) : Inherits g i s := ⟨s, .refl, .inl h⟩

/-- A symbol inherits the positions of the terminals at its corners. -/
theorem Inherits.of_starts (h : Starts g i s) : Inherits g i s := ⟨s, .refl, .inr h⟩

/-- A symbol inherits what the symbols inherit that are reached from it. -/
theorem Inherits.of_reaches (hreaches : Reaches g s s') (h : Inherits g i s') :
    Inherits g i s := by
  obtain ⟨s'', hlater, hend⟩ := h
  exact ⟨s'', Relation.ReflTransGen.trans hreaches hlater, hend⟩

/-- Symbols that can be passed are told by their kinds and flags. -/
theorem Passable.of_withoutFirstSets (h : withoutFirstSets t = withoutFirstSets t')
    (hs : Passable t s) : Passable t' s := by
  obtain ⟨x, hx, hterminal, hnullable⟩ := hs
  obtain ⟨y, hy, hkind, hnullable', -, -⟩ := exists_get?_of_withoutFirstSets h hx
  exact ⟨y, hy, (Symbol.isTerminal_congr hkind).trans hterminal, hnullable'.trans hnullable⟩

/-- Corners are told without first-sets. -/
theorem AtCorner.of_withoutFirstSets (h : withoutFirstSets t = withoutFirstSets t')
    {rhs : List SymbolId} (hc : AtCorner t rhs c) : AtCorner t' rhs c := by
  obtain ⟨before, after, hrhs, hbefore⟩ := hc
  exact ⟨before, after, hrhs, fun b hb => (hbefore b hb).of_withoutFirstSets h⟩

/-! ## In the end -/

/-- Computing first-sets writes nothing else. -/
theorem withoutFirstSets_computeFirstSets (hg : g.InRange) :
    withoutFirstSets (computeFirstSets g).2.table = withoutFirstSets g.table :=
  firstMarking.erase_settleRules fun r hr => (hg r hr).1

/-- Every entry is inherited: a visit adds to its left-hand side what stands at corners. -/
theorem inherits_of_bears (hg : g.InRange) (h : Bears i (computeFirstSets g).2.table s) :
    Inherits g i s := by
  have hbacked : withoutFirstSets (computeFirstSets g).2.table = withoutFirstSets g.table ∧
      ∀ i s, Bears i (computeFirstSets g).2.table s → Inherits g i s := by
    apply settle_induction (P := fun t => withoutFirstSets t = withoutFirstSets g.table ∧
      ∀ i s, Bears i t s → Inherits g i s)
    · rintro t r hr ⟨ht, ih⟩
      have hsize : t.size = g.table.size := by
        rw [← firstMarking.size_erase, ht, firstMarking.size_erase]
      have hlhs : r.lhs < t.size := hsize ▸ (hg r hr).1
      refine ⟨(firstMarking.erase_visit t r).trans ht, fun i s hs => ?_⟩
      rcases (bears_visitFirst i t r s hlhs).mp hs with hold | ⟨rfl, hoffers⟩
      · exact ih i s hold
      -- what is new stands at a corner of the rule
      obtain ⟨c, x, hcorner, hx, hcases⟩ := offers_iff.mp hoffers
      obtain ⟨y, hy, hkind, -, hindex, -⟩ := exists_get?_of_withoutFirstSets ht hx
      have hterminal : y.isTerminal = x.isTerminal := Symbol.isTerminal_congr hkind
      have hcorner' : Corner g r.lhs c := ⟨r, hr, rfl, hcorner.of_withoutFirstSets ht⟩
      rcases hcases with ⟨hleaf, hi⟩ | ⟨hleaf, -, hcontains⟩
      · exact .of_starts ⟨c, y, hcorner', hy, hterminal.trans hleaf, hindex.trans hi⟩
      · have hexpands : Expands g r.lhs c := ⟨hcorner', y, hy, hterminal.trans hleaf⟩
        exact .of_reaches (.single hexpands) (ih i c ⟨x, hx, hcontains⟩)
    · exact ⟨rfl, fun i s => .of_bears⟩
  exact hbacked.2 i s h

/-- What stands at a corner of a symbol is borne by it in the end. -/
theorem bears_of_corner (hg : g.InRange) (hcorner : Corner g s c) {x : Symbol}
    (hx : (computeFirstSets g).2.table.get? c = some x)
    (h : x.isTerminal = true ∧ x.index = i ∨
      x.isTerminal = false ∧ x.firstSet.contains i = true) :
    Bears i (computeFirstSets g).2.table s := by
  obtain ⟨r, hmem, rfl, hcorner⟩ := hcorner
  have hcorner' := hcorner.of_withoutFirstSets (withoutFirstSets_computeFirstSets hg).symm
  -- the passes have settled, so that what a rule offers has been added
  have hclosed (hoffers : Offers i (computeFirstSets g).2.table r.lhs r.rhs) :
      Bears i (computeFirstSets g).2.table r.lhs :=
    firstMarking.settleRules_closed (fun r hr => (hg r hr).1) hmem hoffers
  rcases h with hleaf | ⟨hterminal, hcontains⟩
  · exact hclosed (offers_iff.mpr ⟨c, x, hcorner', hx, .inl hleaf⟩)
  · -- the left-hand side itself bears what it would be offered
    by_cases hc : c = r.lhs
    · exact hc ▸ ⟨x, hx, hcontains⟩
    · exact hclosed (offers_iff.mpr ⟨c, x, hcorner', hx, .inr ⟨hterminal, hc, hcontains⟩⟩)

/-- What is inherited becomes an entry. -/
theorem bears_of_inherits (hg : g.InRange) (h : Inherits g i s) :
    Bears i (computeFirstSets g).2.table s := by
  have herase := withoutFirstSets_computeFirstSets hg
  obtain ⟨s', hreaches, hend⟩ := h
  induction hreaches using Relation.ReflTransGen.head_induction_on with
  -- at the last corner the position was there from the beginning, or its terminal stands there
  | refl =>
    rcases hend with hbears | ⟨c, x, hcorner, hx, hterminal, hindex⟩
    · exact firstMarking.marked_settleRules (fun r hr => (hg r hr).1) hbears
    · obtain ⟨y, hy, hkind, -, hindex', -⟩ := exists_get?_of_withoutFirstSets herase.symm hx
      exact bears_of_corner hg hcorner hy
        (.inl ⟨(Symbol.isTerminal_congr hkind).trans hterminal, hindex'.trans hindex⟩)
  -- from there it is handed up from corner to corner
  | head hexpands _ ih =>
    obtain ⟨hcorner, x, hx, hterminal⟩ := hexpands
    obtain ⟨y, hy, hcontains⟩ := ih
    obtain ⟨z, hz, hkind, -⟩ := exists_get?_of_withoutFirstSets herase.symm hx
    rw [hy] at hz
    cases hz
    exact bears_of_corner hg hcorner hy
      (.inr ⟨(Symbol.isTerminal_congr hkind).trans hterminal, hcontains⟩)

/-- What first-sets hold in the end, whatever they held at the beginning. -/
theorem bears_computeFirstSets_iff (hg : g.InRange) :
    Bears i (computeFirstSets g).2.table s ↔ Inherits g i s :=
  ⟨inherits_of_bears hg, bears_of_inherits hg⟩

/-! ## More rules and flags -/

/-- The corners of a grammar are corners of another one, and their kinds are the same. -/
structure Opens (g g' : Grammar) : Prop where
  rule : ∀ r ∈ g.rules, ∃ r' ∈ g'.rules, r'.lhs = r.lhs ∧ r'.rhs = r.rhs
  kind : ∀ s x, g.table.get? s = some x → ∃ x', g'.table.get? s = some x' ∧
    x'.isTerminal = x.isTerminal ∧ (x.nullable = true → x'.nullable = true)

namespace Opens

/-- A corner stays one where rules and flags are added. -/
theorem corner (h : Opens g g') (hc : Corner g s c) : Corner g' s c := by
  obtain ⟨r, hr, rfl, before, after, hrhs, hbefore⟩ := hc
  obtain ⟨r', hr', hlhs, hrhs'⟩ := h.rule r hr
  refine ⟨r', hr', hlhs, before, after, hrhs'.trans hrhs, fun b hb => ?_⟩
  obtain ⟨x, hx, hterminal, hnullable⟩ := hbefore b hb
  obtain ⟨x', hx', hkind, hflag⟩ := h.kind b x hx
  exact ⟨x', hx', hkind.trans hterminal, hflag hnullable⟩

/-- What is reached through corners still is where rules and flags are added. -/
theorem reaches (h : Opens g g') (hs : Reaches g s s') : Reaches g' s s' := by
  refine Relation.ReflTransGen.mono ?_ s s' hs
  rintro a b ⟨hcorner, x, hx, hterminal⟩
  obtain ⟨x', hx', hkind, -⟩ := h.kind b x hx
  exact ⟨h.corner hcorner, x', hx', hkind.trans hterminal⟩

/-- Terminals that keep their positions still begin what they began. -/
theorem starts (h : Opens g g') (hs : Starts g i s)
    (hkept : ∀ c x x', g.table.get? c = some x → g'.table.get? c = some x' →
      x.isTerminal = true → x'.index = x.index) : Starts g' i s := by
  obtain ⟨c, x, hcorner, hx, hterminal, hindex⟩ := hs
  obtain ⟨x', hx', hkind, -⟩ := h.kind c x hx
  exact ⟨c, x', h.corner hcorner, hx', hkind.trans hterminal,
    (hkept c x x' hx hx' hterminal).trans hindex⟩

/-- What is derived is still derived. -/
theorem derives (h : Opens g g') {u v : List SymbolId} (hd : g.Derives u v) : g'.Derives u v := by
  refine hd.mono fun s rhs hprod => ?_
  cases hprod with
  | rule r hr =>
    obtain ⟨r', hr', hlhs, hrhs⟩ := h.rule r hr
    exact hlhs ▸ hrhs ▸ .rule r' hr'
  | flagged s hflag =>
    obtain ⟨x, hx, hnullable⟩ := (Option.any_eq_true _ _).mp hflag
    obtain ⟨x', hx', -, hnullable'⟩ := h.kind s x hx
    exact .flagged s ((Option.any_eq_true _ _).mpr ⟨x', hx', hnullable' hnullable⟩)

/-- First-sets make no difference to corners. -/
theorem of_withoutFirstSets (h : withoutFirstSets g.table = withoutFirstSets g'.table)
    (hrules : g.rules = g'.rules) : Opens g g' where
  rule r hr := ⟨r, hrules ▸ hr, rfl, rfl⟩
  kind s x hx := by
    obtain ⟨x', hx', hkind, hnullable, -⟩ := exists_get?_of_withoutFirstSets h hx
    exact ⟨x', hx', Symbol.isTerminal_congr hkind, hnullable.trans⟩

/-- A grammar closes no way to itself. -/
theorem refl (g : Grammar) : Opens g g where
  rule r hr := ⟨r, hr, rfl, rfl⟩
  kind _ x hx := ⟨x, hx, rfl, id⟩

/-- What is opened twice is opened. -/
theorem trans {g'' : Grammar} (h : Opens g g') (h' : Opens g' g'') : Opens g g'' where
  rule r hr := by
    obtain ⟨r', hr', hlhs, hrhs⟩ := h.rule r hr
    obtain ⟨r'', hr'', hlhs', hrhs'⟩ := h'.rule r' hr'
    exact ⟨r'', hr'', hlhs'.trans hlhs, hrhs'.trans hrhs⟩
  kind s x hx := by
    obtain ⟨x', hx', hkind, hflag⟩ := h.kind s x hx
    obtain ⟨x'', hx'', hkind', hflag'⟩ := h'.kind s x' hx'
    exact ⟨x'', hx'', hkind'.trans hkind, fun hx => hflag' (hflag hx)⟩

end Opens

/-! ## First-sets make no difference -/

/-- What is reached through corners is told without first-sets. -/
theorem reaches_congr (h : withoutFirstSets g.table = withoutFirstSets g'.table)
    (hrules : g.rules = g'.rules) : Reaches g s s' ↔ Reaches g' s s' :=
  ⟨(Opens.of_withoutFirstSets h hrules).reaches,
    (Opens.of_withoutFirstSets h.symm hrules.symm).reaches⟩

/-- Which terminals stand at corners is told without first-sets. -/
theorem starts_congr (h : withoutFirstSets g.table = withoutFirstSets g'.table)
    (hrules : g.rules = g'.rules) : Starts g i s ↔ Starts g' i s := by
  -- positions of terminals are no part of first-sets
  have hindex {g g' : Grammar} (h : withoutFirstSets g.table = withoutFirstSets g'.table)
      (c : SymbolId) (x x' : Symbol) (hx : g.table.get? c = some x)
      (hx' : g'.table.get? c = some x') : x'.index = x.index := by
    obtain ⟨y, hy, -, -, hindex, -⟩ := exists_get?_of_withoutFirstSets h hx
    rw [hx'] at hy
    cases hy
    exact hindex
  constructor
  · exact fun hs => (Opens.of_withoutFirstSets h hrules).starts hs
      fun c x x' hx hx' _ => hindex h c x x' hx hx'
  · exact fun hs => (Opens.of_withoutFirstSets h.symm hrules.symm).starts hs
      fun c x x' hx hx' _ => hindex h.symm c x x' hx hx'

end YaccGrammar.Analysis
