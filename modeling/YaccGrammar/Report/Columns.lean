import YaccGrammar.Fault

/-!
# Columns

Lays a numbered list of names out in columns, from top to bottom and then from left to right. All
columns are equally wide, and a row is at most 76 characters wide unless a single column is wider.
A name that is wider than any field can be is refused.
-/

namespace YaccGrammar.Report

/-- Width that the columns of a row share. -/
def lineWidth : Nat := 76

/-- Width of the narrowest names. -/
def minNameWidth : Nat := 10

/-- Width of the widest field that can be written. -/
def fieldLimit : Nat := 65535

/-- The text with blanks in front of it, at least `width` characters. -/
def padLeft (width : Nat) (text : String) : String :=
  String.ofList (List.replicate (width - text.toList.length) ' ') ++ text

/-- The text cut off or filled up with blanks to `width` characters. -/
def fit (width : Nat) (text : String) : String :=
  let cut := text.toList.take width
  String.ofList (cut ++ List.replicate (width - cut.length) ' ')

/-- Width of the names: that of the longest one. -/
def nameWidth (names : List String) : Nat :=
  names.foldl (fun width name => max width name.toList.length) minNameWidth

/-- Number of columns; each takes the number of the name, the name, and the blanks in front. -/
def columnCount (width : Nat) : Nat := max 1 (lineWidth / (width + 5))

/-- Number of rows that `n` names need. -/
def rowCount (n columns : Nat) : Nat := (n + columns - 1) / columns

/-- The names of a row with their numbers. -/
def rowCells (names : List String) (rows row : Nat) : List (String × Nat) :=
  names.zipIdx.filter fun (_, index) => index % rows = row

/-- All rows. -/
def table (names : List String) : List (List (String × Nat)) :=
  -- name `i` stands in row `i % rows`, so that columns are read from top to bottom
  let rows := rowCount names.length (columnCount (nameWidth names))
  (List.range rows).map (rowCells names rows)

/-- A cell: the number of the name and the name. -/
def renderCell (width : Nat) (cell : String × Nat) : String :=
  " " ++ padLeft 3 (toString cell.2) ++ " " ++ fit width cell.1

/-- A row as a comment line. -/
def renderRow (width : Nat) (cells : List (String × Nat)) : String :=
  "//" ++ String.join (cells.map (renderCell width))

/-- The names as comment lines, each in a field that is as wide as the longest of them. -/
def columnLines (names : List String) : Except Fault (List String) :=
  if fieldLimit < nameWidth names then .error .wideField
  else .ok ((table names).map (renderRow (nameWidth names)))

end YaccGrammar.Report
