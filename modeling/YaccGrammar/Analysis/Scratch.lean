import YaccGrammar.Analysis.Basic

/-!
# First-sets collected in one place

First-sets once more, with a single set in which the additions of all rules are collected, one after
the other. It is made with room for all symbols. It is cleared in front of every rule, and keeps the
blocks that it has been given since. A first-set that grows by it gets as many blocks.
-/

namespace YaccGrammar.Analysis

/-- A table and the set in which additions to its first-sets are collected. -/
structure Bench where
  scratch : BitSet
  table : SymbolTable
  deriving DecidableEq

namespace Bench

/-- Adds to the first-set of the left-hand side of a rule. -/
def visit (b : Bench) (rule : Rule) : Bool × Bench :=
  let found := collectFirst b.table rule.lhs rule.rhs b.scratch.clear
  match b.table.get? rule.lhs with
  | none => (false, { b with scratch := found })
  | some lhs =>
    let grown := lhs.firstSet.union found
    (grown.1, ⟨found, b.table.modify rule.lhs fun s => { s with firstSet := grown.2 }⟩)

/-- Visits all rules once; the first component tells whether a visit changed anything. -/
def pass : List Rule → Bench → Bool × Bench
  | [], b => (false, b)
  | rule :: rules, b =>
    let first := b.visit rule
    let others := pass rules first.2
    (first.1 || others.1, others.2)

/-- Repeats a pass until it changes nothing, but at most `n` times; the first component is the
number of passes. -/
def settle (rules : List Rule) : Nat → Bench → Nat × Bench
  | 0, b => (0, b)
  | n + 1, b =>
    let once := pass rules b
    if once.1 then
      let later := settle rules n once.2
      (later.1 + 1, later.2)
    else (1, once.2)

/-- A table in front of all visits. -/
def ofTable (t : SymbolTable) : Bench := ⟨.withCapacity t.size, t⟩

end Bench

/-- Computes all first-sets with a single set to collect in, and counts the passes. -/
def collectFirstSets (g : Grammar) : Nat × Grammar :=
  let result := Bench.settle g.rules (g.rules.length + 1) (.ofTable g.table)
  (result.1, { g with table := result.2.table })

end YaccGrammar.Analysis

namespace YaccGrammar.Grammar

/-- The grammar with all results of the analysis, its first-sets collected in one place. -/
def analyzeInPlace (g : Grammar) : Grammar := (Analysis.collectFirstSets g.prepared).2

end YaccGrammar.Grammar
