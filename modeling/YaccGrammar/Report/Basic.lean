import YaccGrammar.Grammar.Basic
import YaccGrammar.Report.Columns

/-!
# The report

The report on a grammar: a header of comment lines with all symbols and what was declared of them,
the rules, and on demand the first-sets. It is built as a list of lines. All parts but the rules
follow the sorted view, so the report is refused while that is stale; and it is refused if a name
does not fit in a field.
-/

namespace YaccGrammar.Report

/-- The declaration of a symbol as a comment line: its tag, and its associativity and precedence.
-/
def declarationLine (symbol : Symbol) : String :=
  let tag :=
    match symbol.tag with
    | some tag => " <" ++ tag ++ ">"
    | none => ""
  let precedence :=
    match symbol.assoc.keyword?, symbol.precedence with
    | some keyword, some precedence => " " ++ keyword ++ " " ++ toString precedence
    | _, _ => ""
  "//   " ++ symbol.name ++ tag ++ precedence

/-- Whether there is a declaration to show. -/
def isDeclared (symbol : Symbol) : Bool := symbol.tag.isSome || symbol.precedence.isSome

/-- The declarations of the symbols, with a title if there are any. -/
def declarationLines (symbols : List Symbol) : List String :=
  let declared := symbols.filter isDeclared
  if declared.isEmpty then [] else "// Declarations:" :: declared.map declarationLine

/-- The titles in front of the symbols. -/
def titleLines (file : String) : List String :=
  ["// Reprint of input file \"" ++ file ++ "\".", "// Symbols:"]

/-- The header and the rules. -/
def reprintLines (g : Grammar) (file : String) : Except Fault (List String) := do
  let view ← g.table.sorted
  let columns ← columnLines (view.map g.name)
  return titleLines file ++
    columns ++
    declarationLines (view.filterMap g.table.get?) ++
    g.rules.map g.displayRule

/-- The first-set of a symbol; the empty text, if the symbol derives it, is written `ε`. -/
def firstSetLine (g : Grammar) (id : SymbolId) : Except Fault String := do
  let names ← g.firstSetNames id
  let all := if g.table.isNullable id then names ++ ["ε"] else names
  return g.name id ++ " => \x7b " ++ ", ".intercalate all ++ " \x7d"

/-- The first-sets of all symbols. -/
def firstSetLines (g : Grammar) : Except Fault (List String) := do
  (← g.table.sorted).mapM (firstSetLine g)

/-- The report, with or without first-sets. -/
def lines (g : Grammar) (file : String) (firstSets : Bool) : Except Fault (List String) := do
  let reprint ← reprintLines g file
  if firstSets then return reprint ++ (← firstSetLines g) else return reprint

/-- Lines as a text, each with a line break behind it. -/
def render (lines : List String) : String := String.join (lines.map (· ++ "\n"))

/-- The text of the report. -/
def text (g : Grammar) (file : String) (firstSets : Bool) : Except Fault String :=
  (lines g file firstSets).map render

/-- What has been written of a report when it turns out that the rest cannot be. -/
def begun (g : Grammar) (file : String) : String :=
  match g.table.sorted, reprintLines g file with
  | .error _, _ => render (titleLines file)
  -- a name fits in no field: its cell is the first one behind the slashes of the first row
  | .ok _, .error _ => render (titleLines file) ++ "//"
  | .ok view, .ok reprint =>
    let sets := view.map fun id => (firstSetLine g id).toOption
    render (reprint ++ (sets.takeWhile Option.isSome).filterMap id)

/-- What is written of a report, and the fault that ends the writing, if one does. -/
structure Written where
  text : String
  fault : Option Fault

/-- Writes the report line by line, as far as it can be written. -/
def write (g : Grammar) (file : String) (firstSets : Bool) : Written :=
  match text g file firstSets with
  | .ok report => ⟨report, none⟩
  | .error fault => ⟨begun g file, some fault⟩

end YaccGrammar.Report
