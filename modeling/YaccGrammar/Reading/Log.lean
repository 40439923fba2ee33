import YaccGrammar.Log
import YaccGrammar.Reading.Document

/-!
# The log of reading

What the program tells while it reads a grammar file. The log follows from the tokens and the
states: one entry for every token and state that meet, then an entry for each diagnostic that the
reaction adds, or a remark on what the token means there.
-/

namespace YaccGrammar.Reading

open Log

/-- A remark that begins with a place in the file. -/
def remarkAt (s : State) (line : Nat) (text : String) : String :=
  s.file ++ ":" ++ toString line ++ ": " ++ text

/-- What there is to say on a token besides its diagnostics. -/
def remark (t : Token) (s : State) : Option Entry :=
  match s.phase with
  | .keyword =>
    if t.is '%' then some ⟨.debug, "rule section starts on line " ++ toString t.line⟩ else none
  | .declaredNames =>
    if t.is '%' then none
    else
      match s.keyword with
      | none => some ⟨.trace, "skipping " ++ Problem.cite t.text⟩
      | some keyword =>
        let redefines := (s.grammar.table.find? t.text).any s.grammar.table.hasPrecedence
        -- only a name that the declaration accepts gets a new precedence
        if t.first ≠ '<' && assocOf keyword ≠ .unknown && Name.isTerminal t.text && redefines then
          some ⟨.warn, remarkAt s t.line ("precedence of " ++ Problem.cite t.text ++ " redefined")⟩
        else none
  | .ruleBody =>
    let isMark := t.is '|' || t.first = '{' || t.is '%' || t.is ';'
    if s.openRule.isSome && !isMark && Name.isSymbol t.text &&
        (s.grammar.table.find? t.text).isNone then
      some ⟨.debug, remarkAt s t.line (Problem.cite t.text ++ " used before being declared")⟩
    else none
  | .precSymbol =>
    match s.grammar.table.find? t.text, s.openRule with
    | some symbol, some _ =>
      if s.grammar.table.hasPrecedence symbol then none
      else
        some ⟨.warn, remarkAt s t.line
          (Problem.cite ("%prec " ++ t.text) ++ " names a symbol without precedence")⟩
    | _, _ => none
  | _ => none

/-- The entry for a diagnostic. -/
def diagnosticEntry (d : Diagnostic) : Entry := ⟨.debug, d.render⟩

/-- The entries for one reaction. -/
def logReaction (t : Token) (s : State) : List Entry :=
  ⟨.trace, "state=" ++ s.phase.label ++ " token=" ++ Problem.cite t.text⟩ ::
    ((react t s).state.errors.drop s.errors.length).map diagnosticEntry ++ (remark t s).toList

/-- The entries for a token. -/
def logConsume (t : Token) (s : State) : List Entry :=
  logReaction t s ++
    match react t s with
    | .done _ => []
    | .again s => logReaction t s

/-- The entries for a list of tokens. -/
def logTokens : List Token → State → List Entry
  | [], _ => []
  | t :: ts, s => logConsume t s ++ logTokens ts (consume t s)

/-- Number of bytes of a code block. -/
def codeBytes (block : Option CodeBlock) : Nat := (block.map fun b => b.code.utf8ByteSize).getD 0

/-- The entries for a document that was read to its end. -/
def logDocument (s : State) (d : Document) : List Entry :=
  let g := d.grammar
  [⟨.debug, "parsed " ++ toString g.rules.length ++ " rules with " ++ toString s.errors.length ++
    " errors; code bytes: import " ++ toString (codeBytes g.importCode) ++ ", union " ++
    toString (codeBytes g.unionCode) ++ ", trailing " ++ toString (codeBytes g.trailingCode)⟩] ++
  g.unusedTerminals.map (fun name =>
    ⟨.warn, s.file ++ ": terminal " ++ Problem.cite name ++ " is never used"⟩) ++
  [⟨.info, s.file ++ ": " ++ toString g.rules.length ++ " rules, " ++ toString g.table.terminals ++
    " terminals, " ++ toString g.table.nonterminals ++ " nonterminals, " ++
    toString d.errors.length ++ " errors"⟩]

/-- The entries for a run. -/
def Run.log (r : Run) : List Entry :=
  logTokens r.tokens (.initial r.state.file) ++
    match r.outcome with
    | .ok d => logDocument r.state d
    | .error errors => (errors.getLast?.map diagnosticEntry).toList

end YaccGrammar.Reading
