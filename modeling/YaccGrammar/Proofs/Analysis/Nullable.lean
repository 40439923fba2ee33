import YaccGrammar.Analysis.Nullable
import YaccGrammar.Proofs.Analysis.Derivation
import YaccGrammar.Proofs.Analysis.Passes
import YaccGrammar.Proofs.Symbol.Table

/-!
# Nullable symbols are those that derive the empty form

The flags that the analysis sets are compared with derivability. Every flag that a visit sets is
backed by a derivation; and once the passes have settled, the flagged symbols are closed under the
productions, so that they hold everything that vanishes.

## Main statement

- `computeNullable_exact`: after the analysis a symbol is flagged exactly when it derives the empty
  form, and the order of the rules makes no difference.
-/

namespace YaccGrammar

/-- The rules of the grammar name symbols that exist. -/
def Grammar.InRange (g : Grammar) : Prop :=
  ∀ r ∈ g.rules, r.lhs < g.table.size ∧ ∀ s ∈ r.rhs, s < g.table.size

namespace Analysis

open SymbolTable

/-! ## Flags as marks -/

/-- The table without its nullable flags. -/
def unflagged (t : SymbolTable) : SymbolTable :=
  t.mapSymbols fun x => { x with nullable := false }

/-- Setting a flag sets no other one. -/
theorem isNullable_modify {t : SymbolTable} {id s : SymbolId} (h : id < t.size) :
    (t.modify id fun x => { x with nullable := true }).isNullable s = true ↔
      t.isNullable s = true ∨ s = id := by
  simp only [isNullable, get?_modify]
  by_cases hs : s = id
  · subst hs
    obtain ⟨x, hx⟩ := exists_get?_of_lt h
    simp [hx]
  · simp [hs]

/-- A visit clears no flag. -/
theorem isNullable_visitNullable_of_isNullable (t : SymbolTable) (r : Rule) {s : SymbolId}
    (h : t.isNullable s = true) : (visitNullable t r).2.isNullable s = true := by
  unfold visitNullable
  split
  · exact h
  · obtain ⟨x, hx, hnullable⟩ := (Option.any_eq_true _ _).mp h
    simp only [isNullable, get?_modify, hx]
    split
    · rfl
    · exact hnullable

/-- A visit flags the left-hand side if the right-hand side is nullable, and clears no flag. -/
theorem isNullable_visitNullable (t : SymbolTable) (r : Rule) (s : SymbolId)
    (h : r.lhs < t.size) :
    (visitNullable t r).2.isNullable s = true ↔
      t.isNullable s = true ∨ s = r.lhs ∧ isRuleNullable t r = true := by
  unfold visitNullable
  -- a left-hand side that is flagged already is passed over
  by_cases hlhs : t.isNullable r.lhs = true
  · simp only [hlhs, Bool.true_or, if_true]
    constructor
    · exact Or.inl
    · rintro (hs | ⟨rfl, -⟩)
      · exact hs
      · exact hlhs
  · by_cases hrule : isRuleNullable t r = true
    · simp [hlhs, hrule, isNullable_modify h]
    · simp [hlhs, hrule]

/-- Visits for flags are visits of a marking with one mark. -/
theorem nullableMarking :
    Marking visitNullable (fun (_ : Unit) t s => t.isNullable s = true)
      (fun _ t r => isRuleNullable t r = true) unflagged where
  size_erase t := size_mapSymbols _ t
  erase_visit t r := by
    unfold visitNullable
    split
    · rfl
    · exact mapSymbols_modify (fun _ => by rfl) t r.lhs
  marked_visit _ t r s h := isNullable_visitNullable t r s h
  changed_visit t r _ := by
    unfold visitNullable
    by_cases hlhs : t.isNullable r.lhs = true <;>
      by_cases hrule : isRuleNullable t r = true <;> simp [hlhs, hrule]
  adds_congr _ t t' r _ hmarks := by
    have hflags : t.isNullable = t'.isNullable := by
      funext s
      exact Bool.eq_iff_iff.mpr (hmarks s)
    simp only [isRuleNullable, hflags]

/-! ## Soundness and completeness -/

variable {g : Grammar}

/-- Computing the flags writes nothing else. -/
theorem unflagged_computeNullable (hg : g.InRange) :
    unflagged (computeNullable g).2.table = unflagged g.table :=
  nullableMarking.erase_settleRules fun r hr => (hg r hr).1

/-- Computing the flags adds no symbol. -/
theorem size_computeNullable (hg : g.InRange) :
    (computeNullable g).2.table.size = g.table.size := by
  have h := congrArg SymbolTable.size (unflagged_computeNullable hg)
  simpa [unflagged] using h

/-- A symbol that was flagged stays flagged. -/
theorem isNullable_computeNullable_of_isNullable (hg : g.InRange) {s : SymbolId}
    (h : g.table.isNullable s = true) : (computeNullable g).2.table.isNullable s = true :=
  nullableMarking.marked_settleRules (i := ()) (fun r hr => (hg r hr).1) h

/-- Every flag is backed by a derivation: a visit flags a symbol whose rule derives what has been
found to vanish. -/
theorem derives_nil_of_isNullable_computeNullable (hg : g.InRange) {s : SymbolId}
    (h : (computeNullable g).2.table.isNullable s = true) : g.Derives [s] [] := by
  have hbacked : (computeNullable g).2.table.size = g.table.size ∧
      ∀ s, (computeNullable g).2.table.isNullable s = true → g.Derives [s] [] := by
    -- the visits keep this: whatever is flagged vanishes
    apply settle_induction (P := fun t => t.size = g.table.size ∧
      ∀ s, t.isNullable s = true → g.Derives [s] [])
    · rintro t r hr ⟨hsize, ih⟩
      have hlhs : r.lhs < t.size := by
        rw [hsize]
        exact (hg r hr).1
      refine ⟨(nullableMarking.size_visit t r).trans hsize, ?_⟩
      intro s hs
      rcases (isNullable_visitNullable t r s hlhs).mp hs with hold | ⟨rfl, hrhs⟩
      · exact ih s hold
      · -- all of the right-hand side is flagged, so it vanishes, and the left-hand side with it
        have hvanish : g.Derives r.rhs [] := by
          apply Grammar.derives_nil_of_forall
          intro s' hs'
          exact ih s' (List.all_eq_true.mp hrhs s' hs')
        exact .head (Grammar.rewrites_of_production (.rule r hr)) hvanish
    · -- the first flags are productions themselves
      refine ⟨rfl, ?_⟩
      intro s hs
      exact .single (Grammar.rewrites_of_production (.flagged s hs))
  exact hbacked.2 s h

/-- The settled flags are closed under the productions, hence hold all symbols that vanish. -/
theorem isNullable_computeNullable_of_derives_nil (hg : g.InRange) {s : SymbolId}
    (h : g.Derives [s] []) : (computeNullable g).2.table.isNullable s = true := by
  refine Grammar.forall_mem_of_derives_nil
    (P := fun s => (computeNullable g).2.table.isNullable s = true) ?_ h s List.mem_cons_self
  intro s rhs hprod hrhs
  -- a rule would have been visited once more, and a flag was there from the beginning
  cases hprod with
  | rule r hmem =>
    apply nullableMarking.settleRules_closed (i := ()) (fun r hr => (hg r hr).1) hmem
    exact List.all_eq_true.mpr hrhs
  | flagged s hflag => exact isNullable_computeNullable_of_isNullable hg hflag

/-- The flags are exact. -/
theorem isNullable_computeNullable_iff (hg : g.InRange) (s : SymbolId) :
    (computeNullable g).2.table.isNullable s = true ↔ g.Derives [s] [] :=
  ⟨derives_nil_of_isNullable_computeNullable hg, isNullable_computeNullable_of_derives_nil hg⟩

/-- A table is made up of its flags and the rest. -/
theorem eq_of_unflagged_eq {t t' : SymbolTable} (h : unflagged t = unflagged t')
    (hflags : ∀ s, t.isNullable s = true ↔ t'.isNullable s = true) : t = t' := by
  refine eq_of_mapSymbols_eq h ?_
  intro s x y hx hy hxy
  have hflag := hflags s
  simp only [isNullable, hx, hy, Option.any_some] at hflag
  -- the one field in which the symbols may differ is the flag
  have hnullable : x.nullable = y.nullable := Bool.eq_iff_iff.mpr hflag
  cases x
  cases y
  simp only [Symbol.mk.injEq] at hxy hnullable ⊢
  simp [hxy, hnullable]

/-- The table that results does not depend on the order of the rules. -/
theorem table_computeNullable_perm (hg : g.InRange) {rules : List Rule}
    (hperm : rules.Perm g.rules) :
    (computeNullable { g with rules }).2.table = (computeNullable g).2.table := by
  have hg' : Grammar.InRange { g with rules } := fun r hr => hg r (hperm.mem_iff.mp hr)
  apply eq_of_unflagged_eq
  · rw [unflagged_computeNullable hg', unflagged_computeNullable hg]
  · -- both grammars have the same productions
    intro s
    rw [isNullable_computeNullable_iff hg', isNullable_computeNullable_iff hg]
    constructor
    · refine Grammar.Derives.mono ?_
      intro s rhs hprod
      cases hprod with
      | rule r hmem => exact .rule r (hperm.mem_iff.mp hmem)
      | flagged _ hflag => exact .flagged s hflag
    · refine Grammar.Derives.mono ?_
      intro s rhs hprod
      cases hprod with
      | rule r hmem => exact .rule (g := { g with rules }) r (hperm.mem_iff.mpr hmem)
      | flagged _ hflag => exact .flagged (g := { g with rules }) s hflag

/-- For every grammar whose rules name symbols that exist, and whatever is flagged at the
beginning: the analysis flags exactly the symbols that derive the empty form, where symbols that
were flagged before may vanish; no visit clears a flag; and the rules may stand in any order. -/
theorem computeNullable_exact (g : Grammar) (hg : g.InRange) :
    (∀ s, (computeNullable g).2.table.isNullable s = true ↔ g.Derives [s] []) ∧
    (∀ t r s, t.isNullable s = true → (visitNullable t r).2.isNullable s = true) ∧
    (∀ s, g.table.isNullable s = true → (computeNullable g).2.table.isNullable s = true) ∧
    ∀ rules, rules.Perm g.rules →
      (computeNullable { g with rules }).2.table = (computeNullable g).2.table := by
  refine ⟨isNullable_computeNullable_iff hg, ?_, ?_, ?_⟩
  · exact fun t r s => isNullable_visitNullable_of_isNullable t r
  · exact fun s => isNullable_computeNullable_of_isNullable hg
  · exact fun rules => table_computeNullable_perm hg

/-- Two symbols that name each other in a cycle vanish with the flag of one of them, and take with
them the symbol that leads to both; the terminal does not vanish. -/
theorem computeNullable_exact_of_cycle :
    let g : Grammar :=
      { table :=
          { symbols := [.ofName "s", .ofName "a",
              { Symbol.ofName "b" with nullable := true }, .ofName "T"] }
        rules := [⟨0, 1, [1, 2], none, none, none⟩, ⟨1, 2, [2], none, none, none⟩,
          ⟨2, 3, [1], none, none, none⟩, ⟨0, 4, [3, 0], none, none, none⟩] }
    g.InRange ∧ g.Derives [0] [] ∧ ¬ g.Derives [3] [] := by
  intro g
  have hg : g.InRange := by
    unfold Grammar.InRange
    decide
  obtain ⟨hexact, -⟩ := computeNullable_exact g hg
  refine ⟨hg, (hexact 0).mp (by decide), fun h => ?_⟩
  have hflag := (hexact 3).mpr h
  revert hflag
  decide

end Analysis

end YaccGrammar
