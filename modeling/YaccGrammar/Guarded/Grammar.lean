import YaccGrammar.Grammar.Undefined
import YaccGrammar.Guarded.Number

/-!
# Guarded access to a grammar

The operations on tables and grammars in the form in which they rely on the numbers that they are
given: a symbol or a rule is looked up by its number, and a number that nothing has is refused.
Where the plain operation leaves out a lookup, because a missing symbol or rule makes no difference
to it, the guarded one makes it.
-/

namespace YaccGrammar.Guarded

/-! ## Tables -/

/-- The symbol with a number. -/
def symbol (t : SymbolTable) (id : SymbolId) : Except Fault Symbol :=
  match t.get? id with
  | some x => .ok x
  | none => .error .outOfRange

/-- Changes one symbol. -/
def modifySymbol (t : SymbolTable) (id : SymbolId) (f : Symbol → Symbol) :
    Except Fault SymbolTable := do
  let _ ← symbol t id
  return t.modify id f

/-- Makes a symbol one of the given kind and moves it from one count to the other. -/
def setKind (t : SymbolTable) (id : SymbolId) (kind : SymbolKind) : Except Fault SymbolTable := do
  let x ← symbol t id
  if x.kind = kind then return t
  let t ← modifySymbol t id fun x => { x with kind }
  match kind with
  | .terminal =>
    return { t with terminals := t.terminals + 1, nonterminals := ← lower t.nonterminals }
  | .nonterminal =>
    return { t with nonterminals := t.nonterminals + 1, terminals := ← lower t.terminals }

/-- Gives the symbols of a view their positions, the first of which is `start`. -/
def number (start : Nat) : List SymbolId → SymbolTable → Except Fault SymbolTable
  | [], t => .ok t
  | id :: view, t => do
    number (start + 1) view (← modifySymbol t id fun x => { x with index := start })

/-- Renews the view and the positions of the symbols in it, if the view is stale. -/
def sort (t : SymbolTable) : Except Fault SymbolTable := do
  if t.stale then
    let keys ← (List.range t.size).mapM fun id => return ((← symbol t id).name, id)
    let view := (sortBy (fun a b => decide (a.1 ≤ b.1)) keys).map Prod.snd
    return { ← number 0 view t with view, stale := false }
  else return t

/-! ## Rules -/

/-- Changes one rule. -/
def modifyRule (g : Grammar) (id : RuleId) (f : Rule → Rule) : Except Fault Grammar := do
  let _ ← g.ruleAt id
  return g.modifyRule id f

/-- Adds a rule with an empty right-hand side and links it into the chain of its left-hand side.
-/
def addRule (g : Grammar) (lhs : SymbolId) (line : Nat) : Except Fault (RuleId × Grammar) := do
  let before := (← symbol g.table lhs).firstRule
  let id := g.rules.length
  let table ← modifySymbol g.table lhs fun x => { x with firstRule := some id }
  return (id, { g with rules := g.rules ++ [{ lhs, line, nextLhs := before }], table })

/-- Follows a chain of at most `n` rules. -/
def chain (g : Grammar) : Nat → Option RuleId → Except Fault (List RuleId)
  | _, none => .ok []
  | 0, some _ => .error .endless
  | n + 1, some id => do
    let rule ← g.ruleAt id
    return id :: (← chain g n rule.nextLhs)

/-- The rules of a nonterminal, the last one first. -/
def rulesFor (g : Grammar) (lhs : SymbolId) : Except Fault (List RuleId) := do
  chain g g.rules.length (← symbol g.table lhs).firstRule

/-- Whether a symbol has a rule. The rule behind the first one is looked up on the way. -/
def hasRules (g : Grammar) (id : SymbolId) : Except Fault Bool := do
  match (← symbol g.table id).firstRule with
  | none => return false
  | some first =>
    let _ ← g.ruleAt first
    return true

/-- The name of a symbol. -/
def name (g : Grammar) (id : SymbolId) : Except Fault String :=
  return (← symbol g.table id).name

/-- A rule in one line. -/
def displayRule (g : Grammar) (rule : Rule) : Except Fault String := do
  let lhs ← name g rule.lhs
  let rhs ← rule.rhs.mapM (name g)
  let prec ←
    match rule.precSymbol with
    | some id => (name g id).map fun n => "[" ++ n ++ "]"
    | none => .ok ""
  return lhs ++ ":" ++ String.join (rhs.map (" " ++ ·)) ++ "." ++ prec

/-- The names of the terminals in the first-set of a symbol, in the order of the sorted view. -/
def firstSetNames (g : Grammar) (id : SymbolId) : Except Fault (List String) := do
  (← symbol g.table id).firstSet.toList.mapM fun index => do
    name g (← g.table.atIndex index)

/-! ## Undefined symbols -/

/-- Whether a symbol is a nonterminal without rules. -/
def isUndefined (g : Grammar) (id : SymbolId) : Except Fault Bool := do
  if (← symbol g.table id).isTerminal then return false else return !(← hasRules g id)

/-- The undefined symbols of right-hand sides, each use with the line of its rule. -/
def undefinedUses (g : Grammar) : Except Fault (List (SymbolId × Nat)) := do
  let uses ← g.rules.mapM fun rule => do
    return (← rule.rhs.filterM (isUndefined g)).map fun id => (id, rule.line)
  return uses.flatten

/-- One diagnostic for every nonterminal that is used and has no rule, at its first use. -/
def undefinedNonterminals (g : Grammar) (file : String) : Except Fault (List Diagnostic) := do
  let uses ← undefinedUses g
  (Grammar.firstPerKey [] uses).mapM fun use =>
    return ⟨⟨file, use.2⟩, .undefinedNonterminal (← name g use.1)⟩

/-- A diagnostic for the start symbol, if it has no rule. -/
def undefinedStart (g : Grammar) (file : String) : Except Fault (Option Diagnostic) := do
  match g.start? with
  | some id =>
    if ← hasRules g id then return none
    else return some ⟨⟨file, 0⟩, .undefinedStart (← name g id)⟩
  | none => return none

/-- The diagnostics on symbols without rules. -/
def verify (g : Grammar) (file : String) : Except Fault (List Diagnostic) := do
  let nonterminals ← undefinedNonterminals g file
  let start ← undefinedStart g file
  return nonterminals ++ start.toList

end YaccGrammar.Guarded
