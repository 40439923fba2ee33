import YaccGrammar.Guarded.Grammar
import YaccGrammar.Report.Basic

/-!
# Guarded report

The report on a grammar with every access guarded: the symbols of the sorted view are looked up, the
layout divides and steps by numbers that must not be zero, and every field is as wide as a field can
be at most.
-/

namespace YaccGrammar.Guarded

open Report

/-! ## Columns -/

/-- The symbol at a position of a view. -/
def at? (view : List SymbolId) (index : Nat) : Except Fault SymbolId :=
  match view[index]? with
  | some id => .ok id
  | none => .error .outOfRange

/-- The cell at a position of a view: the position and the name, in a field of the given width. -/
def renderCell (g : Grammar) (view : List SymbolId) (width index : Nat) : Except Fault String := do
  let n ← name g (← at? view index)
  if fieldLimit < width then .error .wideField else return Report.renderCell width (n, index)

/-- A row as a comment line. -/
def renderRow (g : Grammar) (view : List SymbolId) (width rows row : Nat) :
    Except Fault String := do
  let cells ← (← steps row view.length rows).mapM (renderCell g view width)
  return "//" ++ String.join cells

/-- The symbols as comment lines. -/
def columnLines (g : Grammar) (view : List SymbolId) : Except Fault (List String) := do
  let width := nameWidth (← view.mapM (name g))
  let columns := max 1 (← divide lineWidth (width + 5))
  let rows ← divideUp view.length columns
  (List.range rows).mapM (renderRow g view width rows)

/-! ## The report -/

/-- The header and the rules. -/
def reprintLines (g : Grammar) (file : String) : Except Fault (List String) := do
  let view ← g.table.sorted
  let columns ← columnLines g view
  let symbols ← view.mapM (symbol g.table)
  let rules ← g.rules.mapM (displayRule g)
  return titleLines file ++ columns ++ declarationLines symbols ++ rules

/-- The first-set of a symbol; the empty text, if the symbol derives it, is written `ε`. -/
def firstSetLine (g : Grammar) (id : SymbolId) : Except Fault String := do
  let x ← symbol g.table id
  let names ← firstSetNames g id
  let all := if x.nullable then names ++ ["ε"] else names
  return x.name ++ " => \x7b " ++ ", ".intercalate all ++ " \x7d"

/-- The text of the report, with or without first-sets. -/
def report (g : Grammar) (file : String) (firstSets : Bool) : Except Fault String := do
  let reprint ← reprintLines g file
  if firstSets then
    let lines ← (← g.table.sorted).mapM (firstSetLine g)
    return render (reprint ++ lines)
  else return render reprint

end YaccGrammar.Guarded
