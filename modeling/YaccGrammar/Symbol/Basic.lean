import YaccGrammar.BitSet
import YaccGrammar.Name

/-!
# Symbols

A symbol is a terminal or a nonterminal of the grammar, with what the declarations say about it
and what the analysis finds out. Symbols and rules are referred to by number, in the order in
which they were first met.
-/

namespace YaccGrammar

/-- Number of a symbol, in order of first insertion. -/
abbrev SymbolId := Nat

/-- Number of a rule, in order of declaration. -/
abbrev RuleId := Nat

/-- The two kinds of symbols. -/
inductive SymbolKind where
  | terminal
  | nonterminal
  deriving DecidableEq

/-- The kind that a name stands for. -/
def SymbolKind.ofName (name : String) : SymbolKind :=
  if Name.isTerminal name then .terminal else .nonterminal

/-- How operators of the same precedence group. -/
inductive Assoc where
  | left
  | right
  /-- Declared not to group. -/
  | nonassoc
  /-- Not declared. -/
  | unknown
  deriving DecidableEq

/-- The declaration that sets this associativity. -/
def Assoc.keyword? : Assoc → Option String
  | .left => some "%left"
  | .right => some "%right"
  | .nonassoc => some "%nonassoc"
  | .unknown => none

/-- A terminal or nonterminal. -/
structure Symbol where
  name : String
  kind : SymbolKind
  /-- Precedence, if one was declared; higher binds tighter. -/
  precedence : Option Nat := none
  assoc : Assoc := .unknown
  /-- Type tag of the line that declared the symbol. -/
  tag : Option String := none
  /-- Whether the symbol is known to derive the empty text. -/
  nullable : Bool := false
  /-- Positions, in the view sorted by name, of the terminals that can come first in what the
  symbol derives. -/
  firstSet : BitSet := {}
  /-- Position in the view sorted by name, as of the last sort. -/
  index : Nat := 0
  /-- The last rule declared for the symbol. -/
  firstRule : Option RuleId := none
  deriving DecidableEq

namespace Symbol

/-- A symbol about which nothing but its name is known. -/
def ofName (name : String) : Symbol := { name, kind := .ofName name }

/-- Whether the symbol is a terminal. -/
def isTerminal (s : Symbol) : Bool := s.kind = .terminal

/-- Only the kind decides whether a symbol is a terminal. -/
theorem isTerminal_congr {x y : Symbol} (h : x.kind = y.kind) : x.isTerminal = y.isTerminal := by
  rw [isTerminal, isTerminal, h]

/-- Symbols are the same when their names are. -/
def same (a b : Symbol) : Bool := a.name = b.name

end Symbol

end YaccGrammar
