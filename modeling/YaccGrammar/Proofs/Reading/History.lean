import YaccGrammar.Reading.Step

/-!
# Histories

What a sequence of tokens says, written down by an observer who sees the tokens and the phases in
which they are read, but not the grammar that is built from them. The observer keeps the entries of
the declarations, the alternatives of the rules, and every name that is mentioned, all in order.

An alternative is opened by a left-hand side, or by a bar while another alternative is open, and
closed by the next bar or semicolon. Its symbols are the words and literals that are read in the
body of the rule until then.
-/

namespace YaccGrammar.Reading

/-! ## What is written down -/

/-- A name in a declaration, with the keyword and the tag of its line. -/
structure DeclEntry where
  keyword : Keyword
  tag : Option String
  name : String
  deriving DecidableEq

/-- An alternative of a rule, told by names. -/
structure Alternative where
  lhs : String
  symbols : List String := []
  /-- The first code block. -/
  code : Option String := none
  /-- The symbol behind `%prec`, if it was known. -/
  prec : Option String := none
  deriving DecidableEq

/-- Nothing has been read of the alternative but its left-hand side. -/
def Alternative.isBlank (a : Alternative) : Bool :=
  a.symbols.isEmpty && a.code.isNone && a.prec.isNone

/-- An alternative and the token that closed it. -/
structure Closed where
  alternative : Alternative
  closing : Token
  deriving DecidableEq

/-- A bar closed the alternative, not a semicolon. -/
def Closed.byBar (c : Closed) : Bool := c.closing.is '|'

/-- Every alternative yields a rule, except a blank one that is followed by a bar. -/
def Closed.isKept (c : Closed) : Bool := !(c.alternative.isBlank && c.byBar)

/-- What has been read so far. -/
structure History where
  /-- Keyword and tag of the declaration that is being read. -/
  line : Option (Keyword × Option String) := none
  entries : List DeclEntry := []
  /-- All names that were declared or used, with repetitions. -/
  mentions : List String := []
  closed : List Closed := []
  /-- The alternative that is being read. -/
  current : Option Alternative := none
  importCode : Option String := none
  unionCode : Option String := none

namespace History

/-! ## The observer -/

/-- A keyword opens a declaration, except `%prec`. -/
def observeKeyword (t : Token) (h : History) : History :=
  if t.is '%' then h
  else
    match Keyword.ofWord? t.text with
    | none | some .prec => { h with line := none }
    | some keyword => { h with line := some (keyword, none) }

/-- Behind a keyword stands a tag or, for `%union`, a code block. The first block counts. -/
def observeTagOrBlock (t : Token) (h : History) : History :=
  match h.line with
  | none => h
  | some (keyword, _) =>
    if keyword = .union then
      { h with
        line := none
        unionCode := if t.isBlock then h.unionCode <|> some (t.trimmed 1 1) else h.unionCode }
    else if t.first = '<' then { h with line := some (keyword, some (t.trimmed 1 1)) }
    else h

/-- The names of a declaration. -/
def observeName (t : Token) (h : History) : History :=
  if t.is '%' then { h with line := none }
  else
    match h.line with
    | none => h
    | some (keyword, tag) =>
      if t.first = '<' then h
      else
        { h with
          entries := h.entries ++ [⟨keyword, tag, t.text⟩]
          mentions := h.mentions ++ [t.text] }

/-- A left-hand side opens an alternative. -/
def observeHead (t : Token) (h : History) : History :=
  if Name.isNonterminal t.text then
    { h with mentions := h.mentions ++ [t.text], current := some { lhs := t.text } }
  else h

/-- Inside an alternative a bar closes it and opens another one, a semicolon closes it, and code is
attached to it. Only in the body does a word or a literal stand for a symbol. -/
def observeAlternative (inBody : Bool) (t : Token) (h : History) : History :=
  match h.current with
  | none => h
  | some a =>
    if t.is '|' then
      { h with closed := h.closed ++ [⟨a, t⟩], current := some { lhs := a.lhs } }
    else if t.is ';' then { h with closed := h.closed ++ [⟨a, t⟩], current := none }
    else if t.first = '{' then { h with current := some { a with code := a.code <|> some t.text } }
    else if inBody && Name.isSymbol t.text then
      { h with
        mentions := h.mentions ++ [t.text]
        current := some { a with symbols := a.symbols ++ [t.text] } }
    else h

/-- The symbol behind `%prec` counts if it was mentioned before. -/
def observePrec (t : Token) (h : History) : History :=
  match h.current with
  | none => h
  | some a =>
    if t.text ∈ h.mentions then { h with current := some { a with prec := some t.text } } else h

/-- What the observer writes down when a token is read in a phase. -/
def observe (phase : Phase) (t : Token) (h : History) : History :=
  match phase with
  | .importBlock => if t.isImportBlock then { h with importCode := some (t.trimmed 1 2) } else h
  | .keyword => h.observeKeyword t
  | .tagOrBlock => h.observeTagOrBlock t
  | .declaredNames => h.observeName t
  | .ruleHead => h.observeHead t
  | .ruleBody => h.observeAlternative true t
  | .afterPrec => h.observeAlternative false t
  | .precSymbol => h.observePrec t
  | .preamble | .declaration | .colon | .precKeyword | .trailerMark | .trailer => h

/-- Only among the names of a declaration are entries written down, and only inside a rule is an
alternative closed. -/
theorem observe_frame (phase : Phase) (t : Token) (h : History) :
    (phase ≠ .declaredNames → (h.observe phase t).entries = h.entries) ∧
      (¬ (phase = .ruleBody ∨ phase = .afterPrec) → (h.observe phase t).closed = h.closed) := by
  -- by phases; each observer writes into its own part of the history
  cases phase with
  | declaredNames =>
    refine ⟨fun hne => absurd rfl hne, fun _ => ?_⟩
    simp only [observe, observeName]
    split
    · rfl
    split
    · rfl
    split <;> rfl
  -- an alternative may be closed here, and nothing is asked about that
  | ruleBody | afterPrec =>
    refine ⟨fun _ => ?_, fun hout => absurd (by simp) hout⟩
    simp only [observe, observeAlternative]
    split
    · rfl
    split
    · rfl
    split
    · rfl
    split
    · rfl
    split <;> rfl
  | keyword =>
    simp only [observe, observeKeyword]
    split
    · exact ⟨fun _ => rfl, fun _ => rfl⟩
    split <;> exact ⟨fun _ => rfl, fun _ => rfl⟩
  | tagOrBlock =>
    simp only [observe, observeTagOrBlock]
    split
    · exact ⟨fun _ => rfl, fun _ => rfl⟩
    split
    · exact ⟨fun _ => rfl, fun _ => rfl⟩
    split <;> exact ⟨fun _ => rfl, fun _ => rfl⟩
  | importBlock =>
    simp only [observe]
    split <;> exact ⟨fun _ => rfl, fun _ => rfl⟩
  | ruleHead =>
    simp only [observe, observeHead]
    split <;> exact ⟨fun _ => rfl, fun _ => rfl⟩
  | precSymbol =>
    simp only [observe, observePrec]
    split
    · exact ⟨fun _ => rfl, fun _ => rfl⟩
    split <;> exact ⟨fun _ => rfl, fun _ => rfl⟩
  | preamble | declaration | colon | precKeyword | trailerMark | trailer =>
    exact ⟨fun _ => rfl, fun _ => rfl⟩

/-- A token that is read again is observed again, in the phase in which it is read then. -/
def read (t : Token) (s : State) (h : History) : History :=
  match react t s with
  | .done _ => h.observe s.phase t
  | .again s' => (h.observe s.phase t).observe s'.phase t

/-- The history after a list of tokens that is read from a state. -/
def readAll : List Token → State → History → History
  | [], _, h => h
  | t :: ts, s, h => readAll ts (consume t s) (h.read t s)

/-- The history of a list of tokens. -/
def ofTokens (file : String) (ts : List Token) : History := readAll ts (.initial file) {}

/-! ## What follows from it -/

/-- The names, each at its first mention. -/
def names (h : History) : List String := h.mentions.eraseDups

/-- The alternatives that yield rules. -/
def kept (h : History) : List Alternative := (h.closed.filter Closed.isKept).map Closed.alternative

/-- An empty alternative of the symbol was closed by a bar. -/
def flags (h : History) (n : String) : Bool :=
  h.closed.any fun c => c.byBar && c.alternative.symbols.isEmpty && c.alternative.lhs = n

end History

/-! ## Symbols from entries -/

namespace DeclEntry

/-- The entries that give a precedence. -/
def ranked (entries : List DeclEntry) : List DeclEntry :=
  entries.filter fun e => assocOf e.keyword ≠ .unknown && Name.isTerminal e.name

/-- The last entry that gives a name its precedence, with the number of such entries before it. -/
def rank? (entries : List DeclEntry) (n : String) : Option (DeclEntry × Nat) :=
  ((ranked entries).zipIdx.filter fun p => p.1.name = n).getLast?

/-- The last tag that a name was given. -/
def tag? (entries : List DeclEntry) (n : String) : Option String :=
  ((entries.filter fun e => e.name = n).filterMap DeclEntry.tag).getLast?

/-- The first name that `%start` accepts. -/
def start? (entries : List DeclEntry) : Option String :=
  (entries.find? fun e => e.keyword = .start && Name.isNonterminal e.name).map DeclEntry.name

/-- The symbol that the entries make of a name. -/
def symbol (entries : List DeclEntry) (nullable : Bool) (n : String) : Symbol where
  name := n
  kind := .ofName n
  precedence := (rank? entries n).map Prod.snd
  assoc := match rank? entries n with
    | some (e, _) => assocOf e.keyword
    | none => .unknown
  tag := tag? entries n
  nullable := nullable

end DeclEntry

/-- The symbol that a history makes of a name. -/
def History.symbol (h : History) (n : String) : Symbol := DeclEntry.symbol h.entries (h.flags n) n

end YaccGrammar.Reading
