/-!
# Keywords

The words that may follow a `%`. They are recognised in any mixture of ASCII capitals and small
letters.
-/

namespace YaccGrammar

/-- The declaration keywords, and `prec`, which belongs into a rule. -/
inductive Keyword where
  | type
  | token
  | left
  | right
  | nonassoc
  | start
  | prec
  | union
  deriving DecidableEq

namespace Keyword

/-- The keyword as it is written behind the `%`. -/
def name : Keyword → String
  | type => "type"
  | token => "token"
  | left => "left"
  | right => "right"
  | nonassoc => "nonassoc"
  | start => "start"
  | prec => "prec"
  | union => "union"

/-- All keywords. -/
def all : List Keyword := [type, token, left, right, nonassoc, start, prec, union]

/-- The keyword that a word stands for. -/
def ofWord? (word : String) : Option Keyword :=
  all.find? fun k => k.name.toList = word.toList.map Char.toLower

/-- The keyword with its `%`. -/
def render (k : Keyword) : String := "%" ++ k.name

/-- Every keyword is recognised under its name. -/
theorem ofWord?_name (k : Keyword) : ofWord? k.name = some k := by cases k <;> decide

end Keyword

end YaccGrammar
