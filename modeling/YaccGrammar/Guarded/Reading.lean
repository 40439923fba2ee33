import YaccGrammar.Guarded.Grammar
import YaccGrammar.Reading.Document
import YaccGrammar.Token.Scanner

/-!
# Guarded reading

Reading a grammar file with every access guarded: the tokens are read character by character, every
symbol and rule is looked up by its number, and the counter for precedences has 32 bits. A phase in
which nothing is looked up reacts as it does anyway.
-/

namespace YaccGrammar.Guarded

open Reading

/-! ## Declarations -/

/-- The state with another grammar. -/
def withGrammar (s : State) (g : Grammar) : State := s.modifyGrammar fun _ => g

/-- The state with another symbol table. -/
def withTable (s : State) (table : SymbolTable) : State :=
  s.modifyGrammar fun g => { g with table }

/-- Gives a symbol the tag of its declaration, if that has one. -/
def setTag (tag : Option String) (id : SymbolId) (table : SymbolTable) :
    Except Fault SymbolTable :=
  match tag with
  | some tag => modifySymbol table id fun x => { x with tag := some tag }
  | none => .ok table

/-- Applies a keyword to a declared name. -/
def declare (keyword : Keyword) (t : Token) (s : State) : Except Fault State := do
  let id := (s.grammar.table.insert t.text).1
  let table ← setTag s.tag id (s.grammar.table.insert t.text).2
  let s := withTable s table
  match keyword with
  | .type =>
    if Name.isNonterminal t.text then return withTable s (← setKind table id .nonterminal)
    else return s.report t.line (.nonterminalExpected keyword t.text)
  | .token =>
    if Name.isTerminal t.text then return withTable s (← setKind table id .terminal)
    else return s.report t.line (.terminalExpected keyword t.text)
  | .left | .right | .nonassoc =>
    if Name.isTerminal t.text then
      let table ← setKind table id .terminal
      let table ← modifySymbol table id fun x =>
        { x with assoc := assocOf keyword, precedence := some s.nextPrecedence }
      return { withTable s table with nextPrecedence := ← raise s.nextPrecedence }
    else return s.report t.line (.terminalExpected keyword t.text)
  | .start =>
    if !Name.isNonterminal t.text then
      return s.report t.line (.nonterminalExpected keyword t.text)
    else if s.grammar.declaredStart.isSome then return s.report t.line (.repeatedStart t.text)
    else return s.modifyGrammar fun g => { g with declaredStart := some id }
  | .prec | .union => return s

/-! ## Rules -/

/-- Reports the empty alternative that a rule has become, if its left-hand side had one before. -/
def checkEmpty (id : RuleId) (line : Nat) (s : State) : Except Fault State := do
  let rule ← s.grammar.ruleAt id
  let lhs ← symbol s.grammar.table rule.lhs
  let others ← rulesFor s.grammar rule.lhs
  let another ← others.anyM fun other => do
    return other ≠ id && (← s.grammar.ruleAt other).rhs.isEmpty
  if lhs.nullable || another then
    return s.report line (.repeatedEmptyAlternative (← name s.grammar rule.lhs))
  else return s

/-- Opens a new rule. -/
def openNew (lhs : SymbolId) (line : Nat) (s : State) : Except Fault State := do
  let new ← addRule s.grammar lhs line
  return { s with openRule := some new.1, grammar := new.2 }

/-- Reads a bar. -/
def newAlternative (id : RuleId) (line : Nat) (s : State) : Except Fault State := do
  let rule ← s.grammar.ruleAt id
  if rule.rhs.isEmpty then
    let s ← checkEmpty id line s
    let table ← modifySymbol s.grammar.table rule.lhs fun x => { x with nullable := true }
    if rule.code.isNone && rule.precSymbol.isNone then return withTable s table
    else openNew rule.lhs line (withTable s table)
  else openNew rule.lhs line s

/-- Gives a rule its code; the first block counts. -/
def attachCode (id : RuleId) (t : Token) (s : State) : Except Fault State := do
  let rule ← s.grammar.ruleAt id
  if rule.code.isSome then
    return s.report t.line (.repeatedCode (← name s.grammar rule.lhs))
  else
    let g ← modifyRule s.grammar id fun r => { r with code := some ⟨t.text, t.line⟩ }
    return withGrammar s g

/-- Reads the semicolon that ends a rule. -/
def endRule (id : RuleId) (line : Nat) (s : State) : Except Fault State := do
  let s := { s with openRule := none }
  let rule ← s.grammar.ruleAt id
  let s ← if rule.rhs.isEmpty then checkEmpty id line s else .ok s
  return s.goto .ruleHead

/-- Appends a symbol to a right-hand side. -/
def appendSymbol (id : RuleId) (name : String) (s : State) : Except Fault State := do
  let symbol := s.grammar.intern name
  let g ← modifyRule symbol.2 id fun r => { r with rhs := r.rhs ++ [symbol.1] }
  return withGrammar s g

/-! ## Reactions -/

/-- The reaction among the names of a declaration. -/
def reactDeclaredNames (t : Token) (s : State) : Except Fault State :=
  if t.is '%' then .ok { s with keyword := none, tag := none, phase := .keyword }
  else
    match s.keyword with
    | none => .ok s
    | some keyword =>
      if t.first = '<' then .ok (s.report t.line (.misplacedTag t.text)) else declare keyword t s

/-- The reaction while waiting for a rule. -/
def reactRuleHead (t : Token) (s : State) : Except Fault State := do
  if t.is '%' then
    if s.grammar.rules.isEmpty then return s.report t.line .noRules
    else return s.goto .trailerMark
  else if Name.isNonterminal t.text then
    let lhs := s.grammar.intern t.text
    return (← openNew lhs.1 t.line { s with grammar := lhs.2 }).goto .colon
  else return { s.report t.line (.invalidLhs t.text) with openRule := none, phase := .ruleBody }

/-- The reaction in a right-hand side. -/
def reactRuleBody (t : Token) (s : State) : Except Fault State :=
  match s.openRule with
  | none => .ok (if t.is ';' then s.goto .ruleHead else s)
  | some id =>
    if t.is '|' then newAlternative id t.line s
    else if t.first = '{' then attachCode id t s
    else if t.is '%' then .ok (s.goto .precKeyword)
    else if t.is ';' then endRule id t.line s
    else if Name.isSymbol t.text then appendSymbol id t.text s
    else .ok (s.report t.line (.unexpectedToken t.text))

/-- The reaction behind `%prec`. -/
def reactPrecSymbol (t : Token) (s : State) : Except Fault State := do
  let s := s.goto .afterPrec
  match s.grammar.table.find? t.text, s.openRule with
  | some id, some rule =>
    -- the precedence of the symbol is looked up for a warning
    let _ ← symbol s.grammar.table id
    let g ← modifyRule s.grammar rule fun r => { r with precSymbol := some id }
    return withGrammar s g
  | _, _ => return s.report t.line (.undeclaredPrecSymbol t.text)

/-- The reaction behind the symbol of `%prec`. -/
def reactAfterPrec (t : Token) (s : State) : Except Fault State := do
  match s.openRule with
  | none => return s.goto .ruleBody
  | some id =>
    if t.first = '{' then attachCode id t s
    else if t.is '|' then return (← newAlternative id t.line s).goto .ruleBody
    else if t.is ';' then endRule id t.line s
    else return s.report t.line (.unexpectedAfterPrec t.text)

/-- What a state makes of a token. -/
def react (t : Token) (s : State) : Except Fault Reaction :=
  match s.phase with
  | .declaredNames => (reactDeclaredNames t s).map .done
  | .ruleHead => (reactRuleHead t s).map .done
  | .ruleBody => (reactRuleBody t s).map .done
  | .precSymbol => (reactPrecSymbol t s).map .done
  | .afterPrec => (reactAfterPrec t s).map .done
  | _ => .ok (Reading.react t s)

/-- Reads a token. -/
def consume (t : Token) (s : State) : Except Fault State := do
  match ← react t s with
  | .done s => return s
  | .again s => return (← react t s).state

/-! ## Texts -/

/-- Takes the trailing code, if it is due. -/
def captureTrailer (m : Scanner) (s : State) : Scanner × State :=
  if s.awaitsTrailer then (m.takeRest.2, s.setTrailer m.takeRest.1 m.line) else (m, s)

/-- Reads at most `n` pieces of a text. -/
def run : Nat → Scanner → State → Except Fault Run
  | 0, _, _ => .error .endless
  | n + 1, m, s => do
    match ← m.next with
    | (.nothing, m) => return ⟨[], m.tokenizer, s, none⟩
    | (.cut what, m) =>
      return ⟨[], m.tokenizer, s.report m.token.line (.unterminated what), some what⟩
    | (.token k, m) =>
      let after := captureTrailer m (← consume k s)
      let r ← run n after.1 after.2
      return { r with tokens := k :: r.tokens }

/-- What a run yields. -/
def outcome (r : Run) : Except Fault (Except (List Diagnostic) Document) := do
  if r.cut.isNone && r.state.isComplete then
    return .ok ⟨r.state.grammar, r.state.errors ++ (← verify r.state.grammar r.state.file)⟩
  else return .error r.errors

/-- Reads a grammar file with the given name and text. -/
def parse (file text : String) : Except Fault (Except (List Diagnostic) Document) := do
  outcome (← run (text.toList.length + 1) (.ofString text) (.initial file))

end YaccGrammar.Guarded
