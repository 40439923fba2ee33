import YaccGrammar.Analysis.Settle

/-!
# Nullable symbols

A symbol is nullable if it is flagged so from the beginning, or if all symbols of the right-hand
side of one of its rules are.
-/

namespace YaccGrammar.Analysis

/-- Whether every symbol of a right-hand side is known to be nullable. -/
def isRuleNullable (t : SymbolTable) (rule : Rule) : Bool := rule.rhs.all t.isNullable

/-- Flags the left-hand side of a rule whose right-hand side is nullable. -/
def visitNullable (t : SymbolTable) (rule : Rule) : Bool × SymbolTable :=
  if t.isNullable rule.lhs || !isRuleNullable t rule then (false, t)
  else (true, t.modify rule.lhs fun s => { s with nullable := true })

/-- Flags all nullable symbols, and counts the passes. -/
def computeNullable (g : Grammar) : Nat × Grammar := settleRules visitNullable g

end YaccGrammar.Analysis
