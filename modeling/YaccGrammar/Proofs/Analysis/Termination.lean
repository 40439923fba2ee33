import YaccGrammar.Proofs.Analysis.Scratch
import YaccGrammar.Proofs.Guarded.Analysis

/-!
# The passes come to an end

The loops of the analysis have no bound: a pass is repeated until one changes nothing. `Loop` is
the run of such a loop, told without a bound, so a loop that never ends has no run. The functions
that compute with a bound on the number of passes give what the run gives, as soon as the bound is
not less than the number of passes that the run takes.

How many passes these are follows from the marks. All marks spread at once, but each mark for
itself is new on one more left-hand side in every pass that puts it anywhere, so no mark is put
anywhere in more passes than there are left-hand sides.

## Main statements

- `Loop.unique`: a loop has at most one run.
- `Loop.eq_of_bounded`: a loop with a bound that is large enough gives what the run gives.
- `Marking.loop_settleRules`: the loops end, and how soon.
- `loops_end_soon`: so do both loops of the analysis, in whichever way first-sets are collected.
-/

namespace YaccGrammar.Analysis

open SymbolTable

/-! ## Loops without a bound -/

/-- Runs of a loop that repeats a step until the step reports no change, with the number of steps.
-/
inductive Loop {σ : Type} (step : σ → Bool × σ) : σ → Nat → σ → Prop where
  | last {a : σ} (h : (step a).1 = false) : Loop step a 1 (step a).2
  | again {a b : σ} {n : Nat} (h : (step a).1 = true) (later : Loop step (step a).2 n b) :
      Loop step a (n + 1) b

namespace Loop

variable {σ : Type} {step : σ → Bool × σ} {a b c : σ} {n m : Nat}

/-- A loop ends in one way. -/
theorem unique (h : Loop step a n b) (h' : Loop step a m c) : n = m ∧ b = c := by
  -- a step reports a change or it does not, so both runs go on or both end
  induction h generalizing m c with
  | last hlast =>
    cases h' with
    | last => exact ⟨rfl, rfl⟩
    | again hagain => exact absurd (hlast.symm.trans hagain) Bool.false_ne_true
  | again hagain _ ih =>
    cases h' with
    | last hlast => exact absurd (hlast.symm.trans hagain) Bool.false_ne_true
    | again _ later =>
      obtain ⟨hcount, hend⟩ := ih later
      exact ⟨congrArg (· + 1) hcount, hend⟩

/-- The first step that reports no change is the last one. -/
theorem of_unchanged {k : Nat} (hlast : (step ((fun a => (step a).2)^[k] a)).1 = false)
    (hbefore : ∀ j < k, (step ((fun a => (step a).2)^[j] a)).1 = true) :
    Loop step a (k + 1) ((fun a => (step a).2)^[k + 1] a) := by
  induction k generalizing a with
  | zero => exact .last hlast
  | succ k ih =>
    -- the run from the second state on is one step shorter
    have hlater := ih (a := (step a).2) hlast fun j hj => hbefore (j + 1) (by omega)
    exact .again (hbefore 0 (Nat.succ_pos k)) hlater

/-- A function that repeats the step, but not more often than it is told, gives what the run gives
if it may take as many steps. -/
theorem eq_of_bounded (h : Loop step a n b) (bounded : Nat → σ → Nat × σ)
    (hbounded : ∀ n a, bounded (n + 1) a =
      if (step a).1 then ((bounded n (step a).2).1 + 1, (bounded n (step a).2).2)
      else (1, (step a).2))
    (hn : n ≤ m) : bounded m a = (n, b) := by
  induction h generalizing m with
  | last hlast =>
    -- the bound allows at least this step
    obtain ⟨m, rfl⟩ := Nat.exists_eq_add_of_le' hn
    rw [hbounded, hlast, if_neg Bool.false_ne_true]
  | again hagain _ ih =>
    obtain ⟨m, rfl⟩ := Nat.exists_eq_succ_of_ne_zero (Nat.ne_zero_of_lt hn)
    rw [hbounded, hagain, if_pos rfl, ih (Nat.le_of_succ_le_succ hn)]

/-- A loop whose steps follow those of another one, and report the same changes, has a run if the
other one has. -/
theorem of_related {τ : Type} {step' : τ → Bool × τ} {R : τ → σ → Prop}
    (hstep : ∀ a' a, R a' a → (step' a').1 = (step a).1 ∧ R (step' a').2 (step a).2)
    (h : Loop step a n b) {a' : τ} (ha : R a' a) : ∃ b', Loop step' a' n b' ∧ R b' b := by
  -- the related loop makes the same decision after every step
  induction h generalizing a' with
  | last hlast =>
    obtain ⟨hchanged, hnext⟩ := hstep a' _ ha
    exact ⟨_, .last (hchanged.trans hlast), hnext⟩
  | again hagain _ ih =>
    obtain ⟨hchanged, hnext⟩ := hstep a' _ ha
    obtain ⟨b', hlater, hb⟩ := ih hnext
    exact ⟨b', .again (hchanged.trans hagain) hlater, hb⟩

end Loop

/-! ## Marks -/

namespace Marking

variable {ι : Type} {visit : SymbolTable → Rule → Bool × SymbolTable}
  {marked : ι → SymbolTable → SymbolId → Prop} {adds : ι → SymbolTable → Rule → Prop}
  {erase : SymbolTable → SymbolTable}

/-- The passes end, at the latest one pass after as many as there are left-hand sides. -/
theorem loop_settleRules (m : Marking visit marked adds erase) {g : Grammar}
    (hr : ∀ r ∈ g.rules, r.lhs < g.table.size) :
    Loop (pass visit g.rules) g.table (settleRules visit g).1 (settleRules visit g).2.table ∧
      (settleRules visit g).1 ≤ (heads g.rules).card + 1 := by
  obtain ⟨k, hk, hlast, hbefore⟩ := m.exists_unchanged hr
  have hrun := Loop.of_unchanged hlast hbefore
  -- the bound that the function computes with is never reached
  have hcard := card_heads_le g.rules
  have hsettle : settle (pass visit g.rules) (g.rules.length + 1) g.table =
      (k + 1, after visit g.rules g.table (k + 1)) :=
    hrun.eq_of_bounded (settle (pass visit g.rules)) (fun _ _ => rfl) (by omega)
  simp only [settleRules, hsettle]
  exact ⟨hrun, Nat.succ_le_succ hk⟩

end Marking

/-! ## Both loops -/

/-- The passes over first-sets end as soon when all additions are collected in one place. -/
theorem loop_collectFirstSets {g : Grammar} (hr : ∀ r ∈ g.rules, r.lhs < g.table.size) :
    ∃ b, Loop (Bench.pass g.rules) (.ofTable g.table) (computeFirstSets g).1 b ∧
      collectFirstSets g = ((computeFirstSets g).1, { g with table := b.table }) := by
  obtain ⟨hrun, hcount⟩ := firstMarking.loop_settleRules hr
  -- the loops begin with the same table
  have hbegin : g.table.size = g.table.size ∧ Alike (Bench.ofTable g.table).table g.table :=
    ⟨rfl, rfl, fun _ _ => Iff.rfl⟩
  obtain ⟨b, hrun', -⟩ := hrun.of_related
    (fun _ _ hbt => Bench.pass_related (follows_alike hr) hbt) hbegin
  have hcard := Marking.card_heads_le g.rules
  have hsettle : Bench.settle g.rules (g.rules.length + 1) (.ofTable g.table) =
      ((computeFirstSets g).1, b) :=
    hrun'.eq_of_bounded (Bench.settle g.rules) (fun _ _ => rfl) (by omega)
  refine ⟨b, hrun', ?_⟩
  simp only [collectFirstSets, hsettle]

/-- Whatever the flags, kinds, positions and first-sets of its symbols are: if the rules of a
grammar name symbols that exist, both loops of the analysis end, and each takes at most one pass
more than there are different left-hand sides. The functions that compute with a bound give what
these loops give, no access fails on the way, and it makes no difference to the number of passes
where additions to first-sets are collected. -/
theorem loops_end_soon (g : Grammar) (hg : g.InRange) :
    (Loop (pass visitNullable g.rules) g.table (computeNullable g).1
        (computeNullable g).2.table ∧
      (computeNullable g).1 ≤ (Marking.heads g.rules).card + 1 ∧
      Guarded.settleRules Guarded.visitNullable g = .ok (computeNullable g).2) ∧
    (Loop (pass visitFirst g.rules) g.table (computeFirstSets g).1
        (computeFirstSets g).2.table ∧
      (computeFirstSets g).1 ≤ (Marking.heads g.rules).card + 1 ∧
      Guarded.settleRules Guarded.visitFirst g = .ok (computeFirstSets g).2) ∧
    ∃ b, Loop (Bench.pass g.rules) (.ofTable g.table) (computeFirstSets g).1 b ∧
      collectFirstSets g = ((computeFirstSets g).1, { g with table := b.table }) := by
  have hr : ∀ r ∈ g.rules, r.lhs < g.table.size := fun r hr => (hg r hr).1
  obtain ⟨hnullable, hnullableCount⟩ := nullableMarking.loop_settleRules hr
  obtain ⟨hfirst, hfirstCount⟩ := firstMarking.loop_settleRules hr
  exact ⟨⟨hnullable, hnullableCount, Guarded.computeNullable_eq_ok hg⟩,
    ⟨hfirst, hfirstCount, Guarded.computeFirstSets_eq_ok hg⟩, loop_collectFirstSets hr⟩

/-- Where each nonterminal waits for the next one, both loops take as many passes as they may. -/
theorem loops_end_soon_chain :
    let g : Grammar :=
      { table := { symbols := [.ofName "a", .ofName "b", .ofName "c", .ofName "T"] }
        rules := [⟨0, 1, [1], none, none, none⟩, ⟨1, 2, [2], none, none, none⟩,
          ⟨2, 3, [3], none, none, none⟩, ⟨2, 4, [], none, none, none⟩] }
    g.InRange ∧
      (∃ t, Loop (pass visitNullable g.rules) g.table ((Marking.heads g.rules).card + 1) t) ∧
      ∃ t, Loop (pass visitFirst g.rules) g.table ((Marking.heads g.rules).card + 1) t := by
  intro g
  have hg : g.InRange := by
    unfold Grammar.InRange
    decide
  have hnullableCount : (computeNullable g).1 = (Marking.heads g.rules).card + 1 := by decide
  have hfirstCount : (computeFirstSets g).1 = (Marking.heads g.rules).card + 1 := by decide
  obtain ⟨⟨hnullable, -⟩, ⟨hfirst, -⟩, -⟩ := loops_end_soon g hg
  rw [hnullableCount] at hnullable
  rw [hfirstCount] at hfirst
  exact ⟨hg, ⟨_, hnullable⟩, _, hfirst⟩

end YaccGrammar.Analysis
