/-!
# File paths

Paths are texts; this module reads their structure. Pieces stand between slashes. Empty pieces and
inner dots say nothing, so paths that differ only in them have the same components.

The file name is the last component, if that is a name. It divides at its last dot into a stem and
an extension, except that a dot in front of the name divides nothing.
-/

namespace YaccGrammar.Path

/-- What a path is made of. -/
inductive Component where
  /-- The slash a path begins with. -/
  | root
  /-- A dot at the beginning of a path. -/
  | here
  /-- Two dots. -/
  | up
  /-- A name. -/
  | name (text : List Char)
  deriving DecidableEq

/-- The pieces between slashes. -/
def pieces : List Char → List (List Char)
  | [] => [[]]
  | c :: s =>
    if c = '/' then [] :: pieces s
    else
      match pieces s with
      | [] => [[c]]
      | piece :: others => (c :: piece) :: others

/-- The component that a piece stands for, unless it says nothing. -/
def ofPiece? (piece : List Char) : Option Component :=
  if piece = [] || piece = ['.'] then none
  else if piece = ['.', '.'] then some .up
  else some (.name piece)

/-- The components of a path. -/
def components (path : String) : List Component :=
  match pieces path.toList with
  | [] => []
  | first :: others =>
    let start : List Component :=
      if first = [] && !others.isEmpty then [.root]
      else if first = ['.'] then [.here]
      else (ofPiece? first).toList
    start ++ others.filterMap ofPiece?

/-- Paths with the same components. -/
def same (a b : String) : Bool := components a = components b

/-- The last component, if it is a name. -/
def fileName? (path : String) : Option (List Char) :=
  match (components path).getLast? with
  | some (.name text) => some text
  | _ => none

/-- The parts of a name before and behind its last dot; `none` if there is no dot, or only one in
front. -/
def divide? (name : List Char) : Option (List Char × List Char) :=
  let behind := (name.reverse.takeWhile (· ≠ '.')).reverse
  let before := ((name.reverse.dropWhile (· ≠ '.')).drop 1).reverse
  if before = [] then none else some (before, behind)

/-- A name without its extension. -/
def stem (name : List Char) : List Char := ((divide? name).map Prod.fst).getD name

/-- A name with its extension replaced; one or two dots alone are left as they are. -/
def withExtension (name extension : List Char) : List Char :=
  -- an extension is taken off first, and its dot stays
  let kept :=
    match divide? name with
    | some (before, _) => before ++ ['.']
    | none => name
  -- then the new one goes behind the stem, if what is left still is a name
  if ofPiece? name = some (.name name) && ofPiece? kept = some (.name kept) then
    stem kept ++ ['.'] ++ extension
  else kept

/-- Puts `extension` in place of the extension of the stem of a path; a path without a file name
is left as it is. -/
def siblingOfStem (path : String) (extension : String) : String :=
  match fileName? path with
  | none => path
  | some name => String.ofList (withExtension (stem name) extension.toList)

end YaccGrammar.Path
