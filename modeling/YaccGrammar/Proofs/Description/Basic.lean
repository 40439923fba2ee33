import YaccGrammar.Proofs.Reading.Alternatives
import YaccGrammar.Proofs.Text.Layout

/-!
# Descriptions of grammars

A description is what a grammar file is meant to say: the code around the grammar, the declarations
and the rules, told by names. It is written as a list of tokens, which may be laid out in a text in
any way; and it says what the grammar holds when such a text has been read.

## Main statement

- `renders_render`: every description can be written as a text.
-/

namespace YaccGrammar

open Reading Text

/-! ## Descriptions -/

/-- A declaration. -/
inductive Declaration where
  /-- A keyword, its tag and its names. -/
  | names (keyword : Keyword) (tag : Option String) (names : List String)
  /-- The code of `%union`, without its braces. -/
  | union (code : String)
  deriving DecidableEq

/-- One alternative of a rule. -/
structure Branch where
  symbols : List String
  /-- The symbol behind `%prec`. -/
  prec : Option String := none
  /-- The code block, with its braces. -/
  code : Option String := none
  deriving DecidableEq

/-- A left-hand side and its alternatives. -/
structure RuleGroup where
  lhs : String
  branches : List Branch
  deriving DecidableEq

/-- What a grammar file says. -/
structure Description where
  /-- The code of the block at the top, without its marks. -/
  importCode : String
  declarations : List Declaration := []
  rules : List RuleGroup
  /-- Everything behind the second `%%`, if there is one. -/
  trailing : Option String := none
  deriving DecidableEq

/-- Marks every member of a list that another one follows. -/
def marked {α : Type} : List α → List (α × Bool)
  | [] => []
  | [a] => [(a, false)]
  | a :: b :: l => (a, true) :: marked (b :: l)

/-- The last member is not followed. -/
theorem exists_mem_marked {α : Type} {l : List α} (h : l ≠ []) : ∃ a, (a, false) ∈ marked l := by
  induction l with
  | nil => contradiction
  | cons a l ih =>
    -- the last member is that of the rest, if there is a rest
    cases l with
    | nil => exact ⟨a, List.mem_singleton_self _⟩
    | cons b l =>
      obtain ⟨c, hc⟩ := ih (List.cons_ne_nil b l)
      exact ⟨c, List.mem_cons_of_mem _ hc⟩

/-- To mark the members of a list brings in no other ones. -/
theorem fst_mem_of_mem_marked {α : Type} {l : List α} {p : α × Bool} (h : p ∈ marked l) :
    p.1 ∈ l := by
  fun_induction marked l with
  | case1 => cases h
  | case2 a =>
    rw [List.mem_singleton.mp h]
    exact List.mem_singleton_self a
  | case3 a b l ih =>
    rcases List.mem_cons.mp h with rfl | h
    · exact List.mem_cons_self
    · exact List.mem_cons_of_mem _ (ih h)

/-! ## Tokens -/

/-- A declaration in tokens. -/
def Declaration.tokens : Declaration → List String
  | names keyword tag ns =>
    "%" :: keyword.name :: (tag.toList.map fun tag => "<" ++ tag ++ ">") ++ ns
  | union code => ["%", "union", "\x7b" ++ code ++ "\x7d"]

/-- An alternative in tokens, without the mark that closes it. -/
def Branch.tokens (b : Branch) : List String :=
  b.symbols ++ (b.prec.toList.flatMap fun p => ["%", "prec", p]) ++ b.code.toList

/-- The mark that closes an alternative. -/
def closingMark (followed : Bool) : String := if followed then "|" else ";"

/-- A rule in tokens. -/
def RuleGroup.tokens (r : RuleGroup) : List String :=
  r.lhs :: ":" :: (marked r.branches).flatMap fun p => p.1.tokens ++ [closingMark p.2]

namespace Description

/-- The block at the top. -/
def importToken (D : Description) : String := "\x7b" ++ D.importCode ++ "%\x7d"

/-- The tokens up to the end of the rules. -/
def body (D : Description) : List String :=
  "%" :: D.importToken :: D.declarations.flatMap Declaration.tokens ++
    "%" :: "%" :: D.rules.flatMap RuleGroup.tokens

/-- All tokens of a description. -/
def tokens (D : Description) : List String :=
  D.body ++ if D.trailing.isSome then ["%", "%"] else []

/-- The text consists of the tokens, in any layout, and of the trailing code behind them. -/
def Renders (D : Description) (text : String) : Prop :=
  ∃ tail, Lays tail D.tokens text.toList ∧
    match D.trailing with
    | some code => tail = code.toList
    | none => tail.all isBlank = true

/-! ## What a description says -/

end Description

/-- The entries of a declaration. -/
def Declaration.entries : Declaration → List DeclEntry
  | names keyword tag ns => ns.map (.mk keyword tag)
  | union _ => []

/-- The code of a `%union`. -/
def Declaration.unionCode : Declaration → Option String
  | names .. => none
  | union code => some code

/-- An alternative of the given left-hand side. -/
def Branch.alternative (lhs : String) (b : Branch) : Alternative where
  lhs := lhs
  symbols := b.symbols
  code := b.code
  prec := b.prec

/-- The alternatives of a rule, and whether a bar follows. -/
def RuleGroup.closings (r : RuleGroup) : List (Alternative × Bool) :=
  (marked r.branches).map fun p => (p.1.alternative r.lhs, p.2)

/-- The names that a rule mentions. -/
def RuleGroup.mentions (r : RuleGroup) : List String := r.lhs :: r.branches.flatMap Branch.symbols

namespace Description

/-- All names of the declarations. -/
def entries (D : Description) : List DeclEntry := D.declarations.flatMap Declaration.entries

/-- All names in order, with repetitions. -/
def mentions (D : Description) : List String :=
  D.entries.map DeclEntry.name ++ D.rules.flatMap RuleGroup.mentions

/-- All alternatives in order. -/
def closings (D : Description) : List (Alternative × Bool) := D.rules.flatMap RuleGroup.closings

/-- The codes of all `%union` declarations. -/
def unions (D : Description) : List String := D.declarations.filterMap Declaration.unionCode

/-- An empty alternative of the symbol stands in front of a bar. -/
def flags (D : Description) (n : String) : Bool :=
  D.closings.any fun c => c.2 && c.1.symbols.isEmpty && c.1.lhs = n

end Description

/-- What a grammar holds, told by names: the codes, the declared start symbol, the symbols in order
of their first mention, and the rules. -/
structure Contents where
  importCode : Option String
  unionCode : Option String
  trailingCode : Option String
  start : Option String
  symbols : List Symbol
  rules : List Alternative
  deriving DecidableEq

/-- The contents of a grammar. Symbols are told without their links to rules. -/
def Grammar.contents (g : Grammar) : Contents where
  importCode := g.importCode.map CodeBlock.code
  unionCode := g.unionCode.map CodeBlock.code
  trailingCode := g.trailingCode.map CodeBlock.code
  start := g.declaredStart.map g.name
  symbols := g.table.symbols.map Symbol.unlinked
  rules := g.rules.map g.alternative

/-- What the grammar of a description holds. Every alternative is a rule, except that a blank one
in front of a bar is kept as the flag of its left-hand side. -/
def Description.contents (D : Description) : Contents where
  importCode := some D.importCode
  unionCode := D.unions.head?
  trailingCode := D.trailing
  start := DeclEntry.start? D.entries
  symbols := D.mentions.eraseDups.map fun n => DeclEntry.symbol D.entries (D.flags n) n
  rules := (D.closings.filter fun c => !(c.1.isBlank && c.2)).map Prod.fst

/-! ## Well-formed descriptions -/

/-- The text is one code block. -/
def isCode (text : String) : Bool := isToken text && text.toList.head? = some '\x7b'

/-- A name that may be declared: one token that is neither a `%` nor a tag. -/
def isDeclarable (n : String) : Bool :=
  isToken n && n ≠ "%" && n.toList.head? ≠ some '<'

/-- A declaration has a keyword of its own, and names that the keyword accepts. -/
def Declaration.isValid : Declaration → Bool
  | names keyword tag ns =>
    keyword ≠ .prec && keyword ≠ .union && (tag.all fun tag => !tag.toList.contains '>') &&
      ns.all fun n => isDeclarable n && accepts keyword n
  | union code => isCode ("\x7b" ++ code ++ "\x7d")

/-- The symbols of an alternative are words and literals, and its code is one block. -/
def Branch.isValid (b : Branch) : Bool :=
  (b.symbols.all fun n => isToken n && Name.isSymbol n) && b.code.all isCode

/-- The symbols behind `%prec` are known when they are read. -/
def branchesKnow : List String → List Branch → Bool
  | _, [] => true
  | known, b :: branches =>
    b.prec.all (known ++ b.symbols).contains && branchesKnow (known ++ b.symbols) branches

/-- A rule has a nonterminal on its left-hand side and at least one alternative. -/
def RuleGroup.isValid (r : RuleGroup) : Bool :=
  Name.isNonterminal r.lhs && !r.branches.isEmpty && r.branches.all Branch.isValid

/-- The symbols behind `%prec` are known when they are read. -/
def rulesKnow : List String → List RuleGroup → Bool
  | _, [] => true
  | known, r :: rules =>
    branchesKnow (known ++ [r.lhs]) r.branches && rulesKnow (known ++ r.mentions) rules

/-- The alternative is empty and has the given left-hand side. -/
def isEmptyOf (lhs : String) (c : Alternative × Bool) : Bool :=
  c.1.lhs = lhs && c.1.symbols.isEmpty

/-- The description can be written down so that nothing in it is out of place. -/
structure Description.Valid (D : Description) : Prop where
  importCode : isCode D.importToken = true
  declaration : ∀ d ∈ D.declarations, d.isValid = true
  union : D.unions.length ≤ 1
  start : D.entries.countP (fun e => e.keyword = .start) ≤ 1
  rules : D.rules ≠ []
  rule : ∀ r ∈ D.rules, r.isValid = true
  prec : rulesKnow (D.entries.map DeclEntry.name) D.rules = true
  empty : ∀ r ∈ D.rules, D.closings.countP (isEmptyOf r.lhs) ≤ 1

instance (D : Description) : Decidable D.Valid :=
  decidable_of_iff (isCode D.importToken = true ∧ (∀ d ∈ D.declarations, d.isValid = true) ∧
      D.unions.length ≤ 1 ∧ D.entries.countP (fun e => e.keyword = .start) ≤ 1 ∧ D.rules ≠ [] ∧
      (∀ r ∈ D.rules, r.isValid = true) ∧ rulesKnow (D.entries.map DeclEntry.name) D.rules = true ∧
      ∀ r ∈ D.rules, D.closings.countP (isEmptyOf r.lhs) ≤ 1)
    ⟨fun ⟨himport, hdeclaration, hunion, hstart, hrules, hrule, hprec, hempty⟩ =>
      ⟨himport, hdeclaration, hunion, hstart, hrules, hrule, hprec, hempty⟩,
    fun h => ⟨h.importCode, h.declaration, h.union, h.start, h.rules, h.rule, h.prec, h.empty⟩⟩

/-! ## One way to write a description -/

namespace Description

/-- The text with one blank in front of every token. -/
def render (D : Description) : String :=
  String.ofList (D.tokens.flatMap (fun token => ' ' :: token.toList) ++
    (D.trailing.getD "").toList)

/-- Tokens with a blank in front of each are a layout of the tokens. -/
theorem lays_of_blanks {tail : List Char} {tokens : List String}
    (hlast : ∀ token, tokens.getLast? = some token → Separated token tail) :
    Lays tail tokens (tokens.flatMap (fun token => ' ' :: token.toList) ++ tail) := by
  induction tokens with
  | nil => exact .nil
  | cons token tokens ih =>
    have hgap : [' '].all isBlank = true := by decide
    rw [List.flatMap_cons, List.append_assoc]
    -- what follows a token begins with a blank, but for the last one
    cases tokens with
    | nil => exact .cons hgap (hlast token rfl) .nil
    | cons next tokens =>
      have hrest := ih fun last hmem => hlast last (by rw [List.getLast?_cons_cons, hmem])
      exact .cons hgap (separated_of_isBlank (by decide)) hrest

/-- Every description can be written as a text. -/
theorem renders_render (D : Description) : D.Renders D.render := by
  refine ⟨(D.trailing.getD "").toList, ?_, ?_⟩
  · rw [render, String.toList_ofList]
    apply lays_of_blanks
    intro token hlast
    cases htrailing : D.trailing with
    -- nothing follows the last token
    | none => exact fun _ _ _ _ _ hnil => nomatch hnil
    | some code =>
      -- the trailing code follows the last mark at once
      have hmark : "%" = token := by simpa [tokens, htrailing] using hlast
      subst hmark
      exact separated_of_mark rfl (by decide) (by decide) _
  · cases D.trailing with
    | none => rfl
    | some code => rfl

end Description

end YaccGrammar
