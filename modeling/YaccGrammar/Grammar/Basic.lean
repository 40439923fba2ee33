import YaccGrammar.Symbol.Table

/-!
# Grammars

A grammar is a table of symbols and a list of rules, with the code that its file carries along.
The rules of one nonterminal form a chain: the symbol knows its last rule, and every rule the one
declared before it for the same symbol.
-/

namespace YaccGrammar

/-- A piece of verbatim code and the line on which it starts. -/
structure CodeBlock where
  code : String
  line : Nat
  deriving DecidableEq

/-- One alternative of a nonterminal. -/
structure Rule where
  lhs : SymbolId
  /-- Line of the left-hand side, or of the bar that opens the alternative. -/
  line : Nat
  rhs : List SymbolId := []
  code : Option CodeBlock := none
  /-- The symbol that lends the rule its precedence. -/
  precSymbol : Option SymbolId := none
  /-- The rule declared before this one for the same left-hand side. -/
  nextLhs : Option RuleId := none
  deriving DecidableEq

/-- A grammar and the code around it. -/
structure Grammar where
  table : SymbolTable := {}
  rules : List Rule := []
  /-- The start symbol, if one was declared. -/
  declaredStart : Option SymbolId := none
  /-- The block at the top of the file. -/
  importCode : Option CodeBlock := none
  /-- The block that defines the type of values. -/
  unionCode : Option CodeBlock := none
  /-- Everything behind the rules. -/
  trailingCode : Option CodeBlock := none
  deriving DecidableEq

namespace Grammar

/-- The rule with a number. -/
def rule? (g : Grammar) (id : RuleId) : Option Rule := g.rules[id]?

/-- The rule with a number; refused if there is none. -/
def ruleAt (g : Grammar) (id : RuleId) : Except Fault Rule :=
  match g.rule? id with
  | some rule => .ok rule
  | none => .error .outOfRange

/-- The name of a symbol. -/
def name (g : Grammar) (id : SymbolId) : String := g.table.name id

/-- Changes the table. -/
def modifyTable (g : Grammar) (f : SymbolTable → SymbolTable) : Grammar :=
  { g with table := f g.table }

/-- Changes one rule. -/
def modifyRule (g : Grammar) (id : RuleId) (f : Rule → Rule) : Grammar :=
  { g with rules := g.rules.modify id f }

/-- The symbol with a name, which is added if there is none yet. -/
def intern (g : Grammar) (name : String) : SymbolId × Grammar :=
  ((g.table.insert name).1, { g with table := (g.table.insert name).2 })

/-- Adds a rule with an empty right-hand side and links it into the chain of its left-hand side.
-/
def addRule (g : Grammar) (lhs : SymbolId) (line : Nat) : RuleId × Grammar :=
  let id := g.rules.length
  let before := (g.table.get? lhs).bind Symbol.firstRule
  (id,
    { g with
      rules := g.rules ++ [{ lhs, line, nextLhs := before }]
      table := g.table.modify lhs fun s => { s with firstRule := some id } })

/-- Follows a chain for at most `n` rules. -/
def chain (g : Grammar) : Nat → Option RuleId → List RuleId
  | 0, _ => []
  | _ + 1, none => []
  | n + 1, some id => id :: chain g n ((g.rule? id).bind Rule.nextLhs)

/-- The rules of a nonterminal, the last one first. -/
def rulesFor (g : Grammar) (lhs : SymbolId) : List RuleId :=
  g.chain g.rules.length ((g.table.get? lhs).bind Symbol.firstRule)

/-- Whether a symbol has a rule; its chain is not followed for that. -/
def hasRules (g : Grammar) (symbol : SymbolId) : Bool :=
  !g.rules.isEmpty && ((g.table.get? symbol).bind Symbol.firstRule).isSome

/-- The start symbol: the declared one, else the left-hand side of the first rule. -/
def start? (g : Grammar) : Option SymbolId := g.declaredStart <|> g.rules.head?.map Rule.lhs

/-- A rule in one line: the left-hand side, a colon, the right-hand side, a full stop, and the
symbol of its precedence in brackets. -/
def displayRule (g : Grammar) (rule : Rule) : String :=
  g.name rule.lhs ++ ":" ++ String.join (rule.rhs.map fun id => " " ++ g.name id) ++ "." ++
    match rule.precSymbol with
    | some id => "[" ++ g.name id ++ "]"
    | none => ""

/-- The names of the terminals in the first-set of a symbol, in the order of the sorted view. -/
def firstSetNames (g : Grammar) (id : SymbolId) : Except Fault (List String) :=
  match g.table.get? id with
  | none => .ok []
  | some symbol => symbol.firstSet.toList.mapM fun index => do
    return g.name (← g.table.atIndex index)

end Grammar

end YaccGrammar
