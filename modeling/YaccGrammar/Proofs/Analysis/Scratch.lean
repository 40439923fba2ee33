import YaccGrammar.Analysis.Scratch
import YaccGrammar.Proofs.Analysis.Room

/-!
# Collecting in one place

The additions of rules to first-sets may be collected in a new set for every rule, or all of them in
one set that is cleared in between. Nobody sees a difference in the members. A difference in the
number of blocks can be seen only where a first-set has more blocks, or a terminal a greater
position, than the symbols of the table account for.

Both computations are followed visit by visit. What relates the tables is a parameter, so that one
induction serves equality and likeness.

## Main statements

- `Bench.settle_related`: computations that are related stay related, and count the same passes.
- `collectFirstSets_eq`: in a roomy table both computations have the same result, block by block.
- `collectFirstSets_alike`: in every table first-sets have the same members.
-/

namespace YaccGrammar.Analysis

open SymbolTable

namespace Bench

/-! ## Related computations -/

/-- Visits of the given rules keep a relation between benches and tables, and report the same
changes. -/
def Follows (R : Bench → SymbolTable → Prop) (rules : List Rule) : Prop :=
  ∀ r ∈ rules, ∀ b t, R b t →
    (b.visit r).1 = (visitFirst t r).1 ∧ R (b.visit r).2 (visitFirst t r).2

variable {R : Bench → SymbolTable → Prop} {b : Bench} {t : SymbolTable}

/-- Passes over related states report the same changes, and what they leave is related again. -/
theorem pass_related {rules : List Rule} (hvisit : Follows R rules) (h : R b t) :
    (pass rules b).1 = (Analysis.pass visitFirst rules t).1 ∧
      R (pass rules b).2 (Analysis.pass visitFirst rules t).2 := by
  induction rules generalizing b t with
  | nil => exact ⟨rfl, h⟩
  | cons r rules ih =>
    -- the first visit, then the others from what it leaves
    obtain ⟨hchanged, hnext⟩ := hvisit r List.mem_cons_self b t h
    obtain ⟨hothers, hend⟩ := ih (fun r' hr' => hvisit r' (List.mem_cons_of_mem r hr')) hnext
    simp only [pass, Analysis.pass]
    exact ⟨by rw [hchanged, hothers], hend⟩

/-- Loops over related states take the same number of passes, and what they leave is related again.
-/
theorem settle_related {rules : List Rule} (hvisit : Follows R rules) (n : Nat) (h : R b t) :
    (settle rules n b).1 = (Analysis.settle (Analysis.pass visitFirst rules) n t).1 ∧
      R (settle rules n b).2 (Analysis.settle (Analysis.pass visitFirst rules) n t).2 := by
  induction n generalizing b t with
  | zero => exact ⟨rfl, h⟩
  | succ n ih =>
    -- one more pass is made by both loops or by none
    obtain ⟨hchanged, hnext⟩ := pass_related hvisit h
    obtain ⟨hlater, hend⟩ := ih hnext
    simp only [settle, Analysis.settle, hchanged]
    split
    · exact ⟨by rw [hlater], hend⟩
    · exact ⟨rfl, hnext⟩

end Bench

/-! ## Equal first-sets -/

/-- The bench holds the table, which is roomy, and its scratch set has room for all symbols. -/
def Bench.Exact (b : Bench) (t : SymbolTable) : Prop :=
  b.table = t ∧ t.Roomy ∧ b.scratch.blocks.length = t.room

/-- Where the scratch set is as good as a new one, a visit does what it does with a new one. -/
theorem visit_eq {b : Bench} {r : Rule}
    (h : collectFirst b.table r.lhs r.rhs b.scratch.clear = ruleFirst b.table r) :
    b.visit r = ((visitFirst b.table r).1, ⟨ruleFirst b.table r, (visitFirst b.table r).2⟩) := by
  unfold Bench.visit visitFirst
  rw [h]
  cases b.table.get? r.lhs <;> rfl

/-- In a roomy table a visit with the scratch set changes the table as a visit with a new set does.
-/
theorem follows_exact (rules : List Rule) : Bench.Follows Bench.Exact rules := by
  rintro r - b _ ⟨rfl, ht, hscratch⟩
  -- the scratch set has as many blocks as a new one, so clearing makes it one
  have hfound : collectFirst b.table r.lhs r.rhs b.scratch.clear = ruleFirst b.table r := by
    rw [BitSet.clear_eq_withCapacity hscratch, ruleFirst]
  rw [visit_eq hfound]
  refine ⟨rfl, rfl, roomy_visitFirst ht r, ?_⟩
  rw [length_ruleFirst ht, room_visitFirst]

/-- In a table with room for all symbols it makes no difference where additions are collected: the
passes are as many, and the first-sets are the same, block by block. -/
theorem collectFirstSets_eq {g : Grammar} (hg : g.table.Roomy) :
    collectFirstSets g = computeFirstSets g := by
  have hbegin : Bench.Exact (.ofTable g.table) g.table := ⟨rfl, hg, rfl⟩
  obtain ⟨hcount, htable, -⟩ :=
    Bench.settle_related (follows_exact g.rules) (g.rules.length + 1) hbegin
  simp only [collectFirstSets, computeFirstSets, settleRules, hcount, htable]

/-! ## First-sets with the same members -/

/-- Tables agree in everything but the blocks of first-sets that hold no member. -/
def Alike (t t' : SymbolTable) : Prop :=
  withoutFirstSets t = withoutFirstSets t' ∧ ∀ i s, Bears i t s ↔ Bears i t' s

/-- A visit with the scratch set writes nothing but first-sets. -/
theorem withoutFirstSets_visit (b : Bench) (r : Rule) :
    withoutFirstSets (b.visit r).2.table = withoutFirstSets b.table := by
  unfold Bench.visit
  split
  · rfl
  · exact mapSymbols_modify (fun _ => by rfl) b.table r.lhs

/-- A visit with the scratch set adds to the left-hand side what the right-hand side offers, and
adds nothing elsewhere. -/
theorem bears_visit (i : Nat) (b : Bench) (r : Rule) (s : SymbolId) (h : r.lhs < b.table.size) :
    Bears i (b.visit r).2.table s ↔
      Bears i b.table s ∨ s = r.lhs ∧ Offers i b.table r.lhs r.rhs := by
  obtain ⟨x, hx⟩ := exists_get?_of_lt h
  simp only [Bench.visit, hx, Bears, get?_modify]
  -- only the left-hand side is written
  by_cases hs : s = r.lhs
  · subst hs
    simp [hx, BitSet.contains_union, contains_collectFirst]
  · simp [hs]

/-- A visit with the scratch set reports a change exactly if something that is offered is not there
yet. -/
theorem changed_visit (b : Bench) (r : Rule) (h : r.lhs < b.table.size) :
    (b.visit r).1 = true ↔ ∃ i, Offers i b.table r.lhs r.rhs ∧ ¬ Bears i b.table r.lhs := by
  obtain ⟨x, hx⟩ := exists_get?_of_lt h
  simp only [Bench.visit, hx, BitSet.union_changed_iff, contains_collectFirst,
    BitSet.contains_clear, Bool.false_eq_true, false_or, Bears, Option.some.injEq, exists_eq_left',
    Bool.not_eq_true]

/-- In tables that are alike a visit with the scratch set and one with a new set leave tables that
are alike. -/
theorem follows_alike {rules : List Rule} {size : Nat} (hr : ∀ r ∈ rules, r.lhs < size) :
    Bench.Follows (fun b t => t.size = size ∧ Alike b.table t) rules := by
  rintro r hmem b t ⟨hsize, herase, hbears⟩
  have hlhs : r.lhs < t.size := hsize ▸ hr r hmem
  -- the two tables have the same symbols, so the left-hand side is in both
  have hlhs' : r.lhs < b.table.size := by
    rwa [← firstMarking.size_erase, herase, firstMarking.size_erase]
  -- what a rule offers does not depend on blocks
  have hoffers (i : Nat) : Offers i b.table r.lhs r.rhs ↔ Offers i t r.lhs r.rhs :=
    firstMarking.adds_congr i b.table t r herase (hbears i)
  refine ⟨?_, (size_visitFirst t r).trans hsize, ?_, ?_⟩
  · rw [Bool.eq_iff_iff, changed_visit b r hlhs', firstMarking.changed_visit t r hlhs]
    simp only [hoffers, hbears]
  · rw [withoutFirstSets_visit, firstMarking.erase_visit, herase]
  · intro i s
    rw [bears_visit i b r s hlhs', bears_visitFirst i t r s hlhs, hbears, hoffers]

/-- Wherever additions are collected, the passes are as many and the first-sets have the same
members. -/
theorem collectFirstSets_alike {g : Grammar} (hr : ∀ r ∈ g.rules, r.lhs < g.table.size) :
    (collectFirstSets g).1 = (computeFirstSets g).1 ∧
      Alike (collectFirstSets g).2.table (computeFirstSets g).2.table := by
  have hbegin : g.table.size = g.table.size ∧ Alike (Bench.ofTable g.table).table g.table :=
    ⟨rfl, rfl, fun _ _ => Iff.rfl⟩
  obtain ⟨hcount, -, halike⟩ :=
    Bench.settle_related (follows_alike hr) (g.rules.length + 1) hbegin
  exact ⟨hcount, halike⟩

end YaccGrammar.Analysis
