import YaccGrammar.Grammar.Basic

/-!
# Repeated passes

An analysis visits the rules in order, again and again, until a whole pass changes nothing. What
one visit finds out is used by the next visit of the same pass.
-/

namespace YaccGrammar.Analysis

/-- Visits all rules once; the first component tells whether a visit changed anything. -/
def pass (visit : SymbolTable → Rule → Bool × SymbolTable) :
    List Rule → SymbolTable → Bool × SymbolTable
  | [], t => (false, t)
  | rule :: rules, t =>
    let first := visit t rule
    let others := pass visit rules first.2
    (first.1 || others.1, others.2)

/-- Repeats a pass until it changes nothing, but at most `n` times; the first component is the
number of passes. -/
def settle (step : SymbolTable → Bool × SymbolTable) : Nat → SymbolTable → Nat × SymbolTable
  | 0, t => (0, t)
  | n + 1, t =>
    let once := step t
    if once.1 then
      let later := settle step n once.2
      (later.1 + 1, later.2)
    else (1, once.2)

/-- Visits the rules of a grammar until nothing changes. After `k` passes everything is known that
follows in `k` steps, and nothing takes more steps than there are left-hand sides; so one pass more
than there are rules is enough. -/
def settleRules (visit : SymbolTable → Rule → Bool × SymbolTable) (g : Grammar) : Nat × Grammar :=
  let result := settle (pass visit g.rules) (g.rules.length + 1) g.table
  (result.1, { g with table := result.2 })

end YaccGrammar.Analysis
