import YaccGrammar.Reading.State
import YaccGrammar.Token.Basic

/-!
# Reading a token

How a state of reading changes with a token. A token that is out of place is reported, and reading
goes on from a fixed phase; where the token may be the beginning of what was expected next, it is
read again there.

`react` is the reaction of each phase; `consume` reads a token to the end, again where a reaction
asks for it.
-/

namespace YaccGrammar.Reading

/-- What a state makes of a token. -/
inductive Reaction where
  /-- The token has been used up. -/
  | done (s : State)
  /-- The token is to be read again in the new state. -/
  | again (s : State)
  deriving DecidableEq

/-- The state after a reaction. -/
def Reaction.state : Reaction → State
  | .done s => s
  | .again s => s

/-- Whether the token is to be read again. -/
def Reaction.isAgain : Reaction → Bool
  | .done _ => false
  | .again _ => true

/-! ## Declarations -/

/-- The associativity that a keyword declares. -/
def assocOf : Keyword → Assoc
  | .left => .left
  | .right => .right
  | .nonassoc => .nonassoc
  | _ => .unknown

/-- Applies a keyword to a declared name. The name becomes a symbol, and gets the tag of the
declaration, also where the keyword refuses it. -/
def declare (keyword : Keyword) (t : Token) (s : State) : State :=
  let id := (s.grammar.intern t.text).1
  let g :=
    match s.tag with
    | some tag =>
      (s.grammar.intern t.text).2.modifyTable (·.modify id fun x => { x with tag := some tag })
    | none => (s.grammar.intern t.text).2
  let s := { s with grammar := g }
  -- the name is a symbol by now, whatever the keyword makes of it
  match keyword with
  | .type =>
    if Name.isNonterminal t.text then
      s.modifyGrammar (·.modifyTable (·.setKind id .nonterminal))
    else s.report t.line (.nonterminalExpected keyword t.text)
  | .token =>
    if Name.isTerminal t.text then s.modifyGrammar (·.modifyTable (·.setKind id .terminal))
    else s.report t.line (.terminalExpected keyword t.text)
  | .left | .right | .nonassoc =>
    if Name.isTerminal t.text then
      { s with
        nextPrecedence := s.nextPrecedence + 1
        grammar := g.modifyTable fun table =>
          (table.setKind id .terminal).modify id fun x =>
            { x with assoc := assocOf keyword, precedence := some s.nextPrecedence } }
    else s.report t.line (.terminalExpected keyword t.text)
  | .start =>
    if !Name.isNonterminal t.text then
      s.report t.line (.nonterminalExpected keyword t.text)
    else if g.declaredStart.isSome then s.report t.line (.repeatedStart t.text)
    else s.modifyGrammar fun g => { g with declaredStart := some id }
  | .prec | .union => s

/-- Keeps the code block of `%union`; the first one counts. -/
def readUnion (t : Token) (s : State) : Reaction :=
  if t.isBlock then
    let s :=
      match s.grammar.unionCode with
      | some first => s.report t.line (.repeatedUnion first.line)
      | none => s.modifyGrammar fun g => { g with unionCode := some ⟨t.trimmed 1 1, t.line⟩ }
    .done { s with keyword := none, phase := .declaration }
  else
    .again { s.report t.line (.missingUnionBlock t.text) with
      keyword := none, phase := .declaredNames }

/-! ## Rules -/

/-- Reports the empty alternative that a rule has become, if its left-hand side had one before: as
a rule, or as a flag that a bar left. -/
def checkEmpty (id : RuleId) (lhs : SymbolId) (line : Nat) (s : State) : State :=
  -- the rule itself is empty too and does not count
  let another := s.grammar.rules.zipIdx.any fun (rule, other) =>
    rule.lhs = lhs && other ≠ id && rule.rhs.isEmpty
  if s.grammar.table.isNullable lhs || another then
    s.report line (.repeatedEmptyAlternative (s.grammar.name lhs))
  else s

/-- Opens a new rule. -/
def openNew (lhs : SymbolId) (line : Nat) (s : State) : State :=
  let new := s.grammar.addRule lhs line
  { s with openRule := some new.1, grammar := new.2 }

/-- Reads a bar. An empty alternative only flags its left-hand side as nullable; its rule is used
for the next alternative, unless it has code or a precedence. -/
def newAlternative (id : RuleId) (line : Nat) (s : State) : State :=
  match s.grammar.rule? id with
  | none => s
  | some rule =>
    if rule.rhs.isEmpty then
      let s := (checkEmpty id rule.lhs line s).modifyGrammar
        (·.modifyTable (·.modify rule.lhs fun x => { x with nullable := true }))
      -- the unused rule stays open and takes the symbols of the next alternative
      if rule.code.isNone && rule.precSymbol.isNone then s else openNew rule.lhs line s
    else openNew rule.lhs line s

/-- Gives a rule its code; the first block counts. -/
def attachCode (id : RuleId) (t : Token) (s : State) : State :=
  match s.grammar.rule? id with
  | none => s
  | some rule =>
    if rule.code.isSome then s.report t.line (.repeatedCode (s.grammar.name rule.lhs))
    else s.modifyGrammar (·.modifyRule id fun r => { r with code := some ⟨t.text, t.line⟩ })

/-- Reads the semicolon that ends a rule. -/
def endRule (id : RuleId) (line : Nat) (s : State) : State :=
  let s := { s with openRule := none }
  let s :=
    match s.grammar.rule? id with
    | some rule => if rule.rhs.isEmpty then checkEmpty id rule.lhs line s else s
    | none => s
  s.goto .ruleHead

/-- Appends a symbol to a right-hand side. -/
def appendSymbol (id : RuleId) (name : String) (s : State) : State :=
  let symbol := s.grammar.intern name
  { s with grammar := symbol.2.modifyRule id fun r => { r with rhs := r.rhs ++ [symbol.1] } }

/-! ## Reactions -/

/-- The reaction while waiting for the first `%`. -/
def reactPreamble (t : Token) (s : State) : Reaction :=
  .done (if t.is '%' then s.goto .importBlock else s.report t.line (.missingImportBlock t.text))

/-- The reaction while waiting for the imported code. If it is missing, the token belongs to the
first declaration. -/
def reactImportBlock (t : Token) (s : State) : Reaction :=
  if t.isImportBlock then
    .done ((s.modifyGrammar fun g => { g with importCode := some ⟨t.trimmed 1 2, t.line⟩ }).goto
      .declaration)
  else .again ((s.report t.line (.missingImportBlock t.text)).goto .keyword)

/-- The reaction while waiting for the `%` of a declaration. -/
def reactDeclaration (t : Token) (s : State) : Reaction :=
  .done (if t.is '%' then s.goto .keyword else s.report t.line (.missingDeclaration t.text))

/-- The reaction while waiting for a keyword. What follows a word that is no keyword is skipped.
-/
def reactKeyword (t : Token) (s : State) : Reaction :=
  if t.is '%' then .done (s.goto .ruleHead)
  else
    let s := { s with tag := none, keyword := none, phase := .declaredNames }
    .done <|
      match Keyword.ofWord? t.text with
      | some .prec => s.report t.line .precOutsideRule
      | some keyword => { s with keyword := some keyword, phase := .tagOrBlock }
      | none => s.report t.line (.unknownKeyword t.text)

/-- The reaction behind a keyword. -/
def reactTagOrBlock (t : Token) (s : State) : Reaction :=
  if s.keyword = some .union then readUnion t s
  else if t.first = '<' then
    .done { s with tag := some (t.trimmed 1 1), phase := .declaredNames }
  else .again (s.goto .declaredNames)

/-- The reaction among the names of a declaration. -/
def reactDeclaredNames (t : Token) (s : State) : Reaction :=
  .done <|
    if t.is '%' then { s with keyword := none, tag := none, phase := .keyword }
    else
      match s.keyword with
      | none => s
      | some keyword =>
        if t.first = '<' then s.report t.line (.misplacedTag t.text) else declare keyword t s

/-- The reaction while waiting for a rule. What follows an invalid left-hand side is skipped. -/
def reactRuleHead (t : Token) (s : State) : Reaction :=
  .done <|
    if t.is '%' then
      if s.grammar.rules.isEmpty then s.report t.line .noRules else s.goto .trailerMark
    else if Name.isNonterminal t.text then
      let lhs := s.grammar.intern t.text
      (openNew lhs.1 t.line { s with grammar := lhs.2 }).goto .colon
    else { s.report t.line (.invalidLhs t.text) with openRule := none, phase := .ruleBody }

/-- The reaction behind a left-hand side. -/
def reactColon (t : Token) (s : State) : Reaction :=
  if t.is ':' then .done (s.goto .ruleBody)
  else .again ((s.report t.line (.missingColon t.text)).goto .ruleBody)

/-- The reaction in a right-hand side; without an open rule everything up to a semicolon is
skipped. -/
def reactRuleBody (t : Token) (s : State) : Reaction :=
  .done <|
    match s.openRule with
    | none => if t.is ';' then s.goto .ruleHead else s
    | some id =>
      if t.is '|' then newAlternative id t.line s
      else if t.first = '{' then attachCode id t s
      else if t.is '%' then s.goto .precKeyword
      else if t.is ';' then endRule id t.line s
      else if Name.isSymbol t.text then appendSymbol id t.text s
      else s.report t.line (.unexpectedToken t.text)

/-- The reaction behind a `%` in a rule. -/
def reactPrecKeyword (t : Token) (s : State) : Reaction :=
  .done <|
    if Keyword.ofWord? t.text = some .prec then s.goto .precSymbol
    else (s.report t.line (.missingPrecKeyword t.text)).goto .ruleBody

/-- The reaction behind `%prec`. -/
def reactPrecSymbol (t : Token) (s : State) : Reaction :=
  -- the phase changes whether or not the symbol is known
  let s := s.goto .afterPrec
  .done <|
    match s.grammar.table.find? t.text, s.openRule with
    | some symbol, some id =>
      s.modifyGrammar (·.modifyRule id fun r => { r with precSymbol := some symbol })
    | _, _ => s.report t.line (.undeclaredPrecSymbol t.text)

/-- The reaction behind the symbol of `%prec`. -/
def reactAfterPrec (t : Token) (s : State) : Reaction :=
  .done <|
    match s.openRule with
    | none => s.goto .ruleBody
    | some id =>
      if t.first = '{' then attachCode id t s
      else if t.is '|' then (newAlternative id t.line s).goto .ruleBody
      else if t.is ';' then endRule id t.line s
      else s.report t.line (.unexpectedAfterPrec t.text)

/-- The reaction behind the first `%` that ends the rules. -/
def reactTrailerMark (t : Token) (s : State) : Reaction :=
  .done (if t.is '%' then s.goto .trailer else s.report t.line (.missingTrailerMark t.text))

/-- The reaction in the trailing code. -/
def reactTrailer (t : Token) (s : State) : Reaction :=
  .done <| s.modifyGrammar fun g =>
    let block := g.trailingCode.getD ⟨"", t.line⟩
    { g with trailingCode := some { block with code := block.code ++ t.text } }

/-- What a state makes of a token. -/
def react (t : Token) (s : State) : Reaction :=
  match s.phase with
  | .preamble => reactPreamble t s
  | .importBlock => reactImportBlock t s
  | .declaration => reactDeclaration t s
  | .keyword => reactKeyword t s
  | .tagOrBlock => reactTagOrBlock t s
  | .declaredNames => reactDeclaredNames t s
  | .ruleHead => reactRuleHead t s
  | .colon => reactColon t s
  | .ruleBody => reactRuleBody t s
  | .precKeyword => reactPrecKeyword t s
  | .precSymbol => reactPrecSymbol t s
  | .afterPrec => reactAfterPrec t s
  | .trailerMark => reactTrailerMark t s
  | .trailer => reactTrailer t s

/-- Reads a token. -/
def consume (t : Token) (s : State) : State :=
  match react t s with
  | .done s => s
  | .again s => (react t s).state

/-- Reads a list of tokens. -/
def consumeAll (ts : List Token) (s : State) : State := ts.foldl (fun s t => consume t s) s

end YaccGrammar.Reading
