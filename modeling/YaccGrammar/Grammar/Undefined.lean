import YaccGrammar.Diagnostic.Basic
import YaccGrammar.Grammar.Basic

/-!
# Undefined symbols

A grammar is checked once it has been read: every nonterminal on a right-hand side needs a rule,
and so does the start symbol. Terminals that occur nowhere are no problem, but worth a warning.
-/

namespace YaccGrammar.Grammar

/-- Whether a symbol is a nonterminal without rules. -/
def isUndefined (g : Grammar) (id : SymbolId) : Bool :=
  !(g.table.get? id).any Symbol.isTerminal && !g.hasRules id

/-- The undefined symbols of right-hand sides, each use with the line of its rule. -/
def undefinedUses (g : Grammar) : List (SymbolId × Nat) :=
  g.rules.flatMap fun rule => (rule.rhs.filter g.isUndefined).map fun id => (id, rule.line)

/-- Keeps the first pair for each first component that has not been seen. -/
def firstPerKey (seen : List SymbolId) : List (SymbolId × Nat) → List (SymbolId × Nat)
  | [] => []
  | p :: l =>
    if seen.contains p.1 then firstPerKey seen l else p :: firstPerKey (p.1 :: seen) l

/-- One diagnostic for every nonterminal that is used and has no rule, at its first use. -/
def undefinedNonterminals (g : Grammar) (file : String) : List Diagnostic :=
  (firstPerKey [] g.undefinedUses).map fun use =>
    ⟨⟨file, use.2⟩, .undefinedNonterminal (g.name use.1)⟩

/-- A diagnostic for the start symbol, if it has no rule. -/
def undefinedStart (g : Grammar) (file : String) : Option Diagnostic :=
  match g.start? with
  | some id => if g.hasRules id then none else some ⟨⟨file, 0⟩, .undefinedStart (g.name id)⟩
  | none => none

/-- The diagnostics on symbols without rules. -/
def verify (g : Grammar) (file : String) : List Diagnostic :=
  g.undefinedNonterminals file ++ (g.undefinedStart file).toList

/-- The symbols that rules use, in right-hand sides or for their precedence. -/
def usedSymbols (g : Grammar) : List SymbolId :=
  g.rules.flatMap fun rule => rule.rhs ++ rule.precSymbol.toList

/-- The names of the terminals without precedence that no rule uses. -/
def unusedTerminals (g : Grammar) : List String :=
  let used := g.usedSymbols
  let unused := g.table.symbols.zipIdx.filter fun (symbol, id) =>
    symbol.isTerminal && !used.contains id && symbol.precedence.isNone
  unused.map fun (symbol, _) => symbol.name

end YaccGrammar.Grammar
