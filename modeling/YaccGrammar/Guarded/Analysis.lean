import YaccGrammar.Analysis.Basic
import YaccGrammar.Guarded.Grammar

/-!
# Guarded analysis

The analysis of a grammar with every access guarded. The passes are repeated until one changes
nothing; that they come to an end is part of what is guarded.
-/

namespace YaccGrammar.Guarded

/-! ## Repeated passes -/

/-- Visits all rules once. -/
def pass (visit : SymbolTable → Rule → Except Fault (Bool × SymbolTable)) :
    List Rule → SymbolTable → Except Fault (Bool × SymbolTable)
  | [], t => .ok (false, t)
  | rule :: rules, t => do
    let first ← visit t rule
    let others ← pass visit rules first.2
    return (first.1 || others.1, others.2)

/-- Repeats a pass until it changes nothing, which must happen within `n` passes. -/
def settle (step : SymbolTable → Except Fault (Bool × SymbolTable)) :
    Nat → SymbolTable → Except Fault (Nat × SymbolTable)
  | 0, _ => .error .endless
  | n + 1, t => do
    let once ← step t
    if once.1 then
      let later ← settle step n once.2
      return (later.1 + 1, later.2)
    else return (1, once.2)

/-- Visits the rules of a grammar until nothing changes. -/
def settleRules (visit : SymbolTable → Rule → Except Fault (Bool × SymbolTable)) (g : Grammar) :
    Except Fault Grammar := do
  let result ← settle (pass visit g.rules) (g.rules.length + 1) g.table
  return { g with table := result.2 }

/-! ## Visits -/

/-- Flags the left-hand side of a rule whose right-hand side is nullable. -/
def visitNullable (t : SymbolTable) (rule : Rule) : Except Fault (Bool × SymbolTable) := do
  let lhs ← symbol t rule.lhs
  let isNullable ← rule.rhs.allM fun id => return (← symbol t id).nullable
  if lhs.nullable || !isNullable then return (false, t)
  else return (true, ← modifySymbol t rule.lhs fun x => { x with nullable := true })

/-- The symbol that lends a rule its precedence. -/
def rulePrecedence (t : SymbolTable) (rule : Rule) : Except Fault (Option SymbolId) :=
  match rule.precSymbol with
  | some id => .ok (some id)
  | none => rule.rhs.findM? fun id => return (← symbol t id).precedence.isSome

/-- Gives every rule its precedence. -/
def backfillPrecedence (g : Grammar) : Except Fault Grammar := do
  let rules ← g.rules.mapM fun rule =>
    return { rule with precSymbol := ← rulePrecedence g.table rule }
  return { g with rules }

/-- The set with one more member, whose block is looked up before it is changed. -/
def insert (n : Nat) (s : BitSet) : Except Fault BitSet :=
  match (s.padded (n / 64 + 1))[n / 64]? with
  | some _ => .ok (s.insert n).2
  | none => .error .outOfRange

/-- Collects the first-sets of the symbols of a right-hand side. -/
def collectFirst (t : SymbolTable) (lhs : SymbolId) : List SymbolId → BitSet → Except Fault BitSet
  | [], found => .ok found
  | id :: rhs, found => do
    let x ← symbol t id
    if x.isTerminal then insert x.index found
    else if id = lhs then
      if x.nullable then collectFirst t lhs rhs found else return found
    else
      let found := (found.union x.firstSet).2
      if x.nullable then collectFirst t lhs rhs found else return found

/-- Adds to the first-set of the left-hand side of a rule. -/
def visitFirst (t : SymbolTable) (rule : Rule) : Except Fault (Bool × SymbolTable) := do
  let lhs ← symbol t rule.lhs
  let found ← collectFirst t rule.lhs rule.rhs (.withCapacity t.size)
  let grown := lhs.firstSet.union found
  return (grown.1, ← modifySymbol t rule.lhs fun x => { x with firstSet := grown.2 })

/-! ## The analysis -/

/-- The grammar with all results of the analysis. -/
def analyze (g : Grammar) : Except Fault Grammar := do
  let g := { g with table := ← sort g.table }
  let g ← settleRules visitNullable g
  let g ← backfillPrecedence g
  settleRules visitFirst g

end YaccGrammar.Guarded
