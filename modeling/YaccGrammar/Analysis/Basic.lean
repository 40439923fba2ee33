import YaccGrammar.Analysis.FirstSet
import YaccGrammar.Analysis.Nullable
import YaccGrammar.Analysis.Precedence
import YaccGrammar.Log

/-!
# Analysis

Sorts the symbols, which gives them their positions, and computes nullable symbols, the precedence
of rules and first-sets, in this order.
-/

namespace YaccGrammar.Grammar

open Analysis Log

/-- The grammar with its symbols sorted. -/
def sorted (g : Grammar) : Grammar := g.modifyTable SymbolTable.sort

/-- The grammar with everything that first-sets depend on. -/
def prepared (g : Grammar) : Grammar := backfillPrecedence (computeNullable g.sorted).2

/-- The grammar with all results of the analysis. -/
def analyze (g : Grammar) : Grammar := (computeFirstSets g.prepared).2

/-- What the program tells while it analyses a grammar. -/
def analysisLog (g : Grammar) : List Entry :=
  let nullablePasses := (computeNullable g.sorted).1
  let firstSets := computeFirstSets g.prepared
  [⟨.debug, "nullable sets settled after " ++ toString nullablePasses ++ " passes"⟩,
    ⟨.debug, "first sets settled after " ++ toString firstSets.1 ++ " passes, " ++
      toString (firstSetEntries firstSets.2.table) ++ " entries"⟩]

end YaccGrammar.Grammar
