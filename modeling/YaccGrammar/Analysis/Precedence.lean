import YaccGrammar.Grammar.Basic

/-!
# Precedence of rules

A rule without `%prec` has the precedence of the leftmost symbol of its right-hand side that has
one.
-/

namespace YaccGrammar.Analysis

/-- The symbol that lends a rule its precedence. -/
def rulePrecedence (t : SymbolTable) (rule : Rule) : Option SymbolId :=
  rule.precSymbol <|> rule.rhs.find? t.hasPrecedence

/-- Gives every rule its precedence. -/
def backfillPrecedence (g : Grammar) : Grammar :=
  { g with rules := g.rules.map fun rule =>
      { rule with precSymbol := rulePrecedence g.table rule } }

end YaccGrammar.Analysis
