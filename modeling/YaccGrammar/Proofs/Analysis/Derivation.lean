import Mathlib.Logic.Relation
import YaccGrammar.Grammar.Basic

/-!
# Derivations

What a grammar derives, without regard to how an analysis finds it out. A sentential form is a list
of symbols; a step replaces one symbol by the right-hand side of one of its productions. The
productions are the rules of the grammar, and an empty one for every symbol that is flagged
nullable from the beginning.

## Main statements

- `Derives.append`: forms that stand side by side derive independently.
- `derives_nil_of_forall`, `forall_mem_of_derives_nil`: a form vanishes if each of its symbols does,
  and what is closed under productions holds every symbol of a form that vanishes.
-/

namespace YaccGrammar.Grammar

/-! ## Steps -/

/-- The productions of a grammar. -/
inductive Production (g : Grammar) : SymbolId → List SymbolId → Prop where
  /-- Every rule is a production. -/
  | rule (r : Rule) (hmem : r ∈ g.rules) : Production g r.lhs r.rhs
  /-- A symbol that is flagged nullable can vanish. -/
  | flagged (s : SymbolId) (hflag : g.table.isNullable s = true) : Production g s []

/-- One symbol is replaced by the right-hand side of one of its productions. -/
inductive Rewrites (g : Grammar) : List SymbolId → List SymbolId → Prop where
  | replace (u v : List SymbolId) {s : SymbolId} {rhs : List SymbolId} (h : Production g s rhs) :
      Rewrites g (u ++ s :: v) (u ++ rhs ++ v)

/-- Derivation in any number of steps. -/
def Derives (g : Grammar) : List SymbolId → List SymbolId → Prop :=
  Relation.ReflTransGen g.Rewrites

/-- Derivation in one or more steps. -/
def DerivesPlus (g : Grammar) : List SymbolId → List SymbolId → Prop :=
  Relation.TransGen g.Rewrites

/-- A grammar with more productions derives more. -/
theorem Derives.mono {g g' : Grammar} (hprod : ∀ s rhs, g.Production s rhs → g'.Production s rhs)
    {u v : List SymbolId} (h : g.Derives u v) : g'.Derives u v := by
  induction h with
  | refl => exact .refl
  | tail _ hstep ih =>
    cases hstep with
    | replace a b h => exact .tail ih (.replace a b (hprod _ _ h))

variable {g : Grammar}

/-! ## Contexts -/

/-- A step goes on the same way between other symbols. -/
theorem Rewrites.context {u v : List SymbolId} (h : g.Rewrites u v) (a b : List SymbolId) :
    g.Rewrites (a ++ u ++ b) (a ++ v ++ b) := by
  cases h with
  | replace p q h =>
    have hstep := Rewrites.replace (a ++ p) (q ++ b) h
    simpa only [List.append_assoc, List.cons_append] using hstep

/-- A derivation goes on the same way between other symbols. -/
theorem Derives.context {u v : List SymbolId} (h : g.Derives u v) (a b : List SymbolId) :
    g.Derives (a ++ u ++ b) (a ++ v ++ b) := by
  induction h with
  | refl => exact .refl
  | tail _ hstep ih => exact .tail ih (hstep.context a b)

/-- Forms that stand side by side derive independently. -/
theorem Derives.append {u u' v v' : List SymbolId} (hu : g.Derives u u') (hv : g.Derives v v') :
    g.Derives (u ++ v) (u' ++ v') := by
  -- first the left part, then the right one
  have h₁ := hu.context [] v
  have h₂ := hv.context u' []
  simp only [List.nil_append, List.append_nil] at h₁ h₂
  exact h₁.trans h₂

/-- A rule, as a step of the symbol that stands alone. -/
theorem rewrites_of_production {s : SymbolId} {rhs : List SymbolId} (h : g.Production s rhs) :
    g.Rewrites [s] rhs := by
  have hstep := Rewrites.replace [] [] h
  simpa using hstep

/-! ## Vanishing -/

/-- A form vanishes if each of its symbols does. -/
theorem derives_nil_of_forall {u : List SymbolId} (h : ∀ s ∈ u, g.Derives [s] []) :
    g.Derives u [] := by
  induction u with
  | nil => exact .refl
  | cons s u ih =>
    have hs := h s List.mem_cons_self
    have hu := ih fun s' hs' => h s' (List.mem_cons_of_mem _ hs')
    exact hs.append hu

/-- A set of symbols that is closed under productions holds every symbol of a form that vanishes. -/
theorem forall_mem_of_derives_nil {P : SymbolId → Prop}
    (hP : ∀ s rhs, g.Production s rhs → (∀ s' ∈ rhs, P s') → P s) {u : List SymbolId}
    (h : g.Derives u []) : ∀ s ∈ u, P s := by
  induction h using Relation.ReflTransGen.head_induction_on with
  | refl =>
    intro s hs
    cases hs
  | head hstep _ ih =>
    cases hstep with
    | replace a b hprod =>
      intro s hs
      -- the replaced symbol has the property because its right-hand side vanishes as well
      rcases List.mem_append.mp hs with ha | hb
      · exact ih s (List.mem_append_left _ (List.mem_append_left _ ha))
      · rcases List.mem_cons.mp hb with rfl | hb
        · apply hP _ _ hprod
          intro s' hs'
          exact ih s' (List.mem_append_left _ (List.mem_append_right _ hs'))
        · exact ih s (List.mem_append_right _ hb)

end YaccGrammar.Grammar
