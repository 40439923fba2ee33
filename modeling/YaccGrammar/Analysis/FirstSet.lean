import YaccGrammar.Analysis.Settle

/-!
# First-sets

The first-set of a nonterminal holds the terminals that can come first in what the nonterminal
derives. It collects what each of its rules adds: the first-sets of the symbols of the right-hand
side, up to and including the first symbol that is not nullable. First-sets hold positions in the
sorted view and are never emptied.
-/

namespace YaccGrammar.Analysis

/-- Collects the first-sets of the symbols of a right-hand side. An occurrence of the left-hand
side itself adds nothing. -/
def collectFirst (t : SymbolTable) (lhs : SymbolId) : List SymbolId → BitSet → BitSet
  | [], found => found
  | id :: rhs, found =>
    match t.get? id with
    | none => found
    | some symbol =>
      if symbol.isTerminal then (found.insert symbol.index).2
      else if id = lhs then
        -- its first-set is the one that is being added to
        if symbol.nullable then collectFirst t lhs rhs found else found
      else
        let found := (found.union symbol.firstSet).2
        if symbol.nullable then collectFirst t lhs rhs found else found

/-- What a rule adds to the first-set of its left-hand side. -/
def ruleFirst (t : SymbolTable) (rule : Rule) : BitSet :=
  collectFirst t rule.lhs rule.rhs (.withCapacity t.size)

/-- Adds to the first-set of the left-hand side of a rule. -/
def visitFirst (t : SymbolTable) (rule : Rule) : Bool × SymbolTable :=
  match t.get? rule.lhs with
  | none => (false, t)
  | some lhs =>
    let grown := lhs.firstSet.union (ruleFirst t rule)
    (grown.1, t.modify rule.lhs fun s => { s with firstSet := grown.2 })

/-- Computes all first-sets, and counts the passes. -/
def computeFirstSets (g : Grammar) : Nat × Grammar := settleRules visitFirst g

/-- Number of entries in all first-sets. -/
def firstSetEntries (t : SymbolTable) : Nat :=
  t.symbols.foldr (fun s n => s.firstSet.size + n) 0

end YaccGrammar.Analysis
