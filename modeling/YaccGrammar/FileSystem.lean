import YaccGrammar.Diagnostic.Problem
import YaccGrammar.Path

/-!
# File systems

Directories and plain files, without links, and a working directory among them. Every place has the
names that lead to it from the root; a path leads to a place from the root if it begins with a
slash, and otherwise from the working directory. Opening a path fails in the ways in which the
system lets it fail.
-/

namespace YaccGrammar

namespace IoFailure

/-- There is nothing under this path. -/
def notFound : IoFailure := ⟨"NotFound", "No such file or directory (os error 2)"⟩

/-- The path leads through a file. -/
def notDirectory : IoFailure := ⟨"NotADirectory", "Not a directory (os error 20)"⟩

/-- The path leads to a directory. -/
def isDirectory : IoFailure := ⟨"IsADirectory", "Is a directory (os error 21)"⟩

/-- The path, or a name in it, is longer than the system allows. -/
def tooLong : IoFailure := ⟨"InvalidFilename", "File name too long (os error 36)"⟩

/-- The file is no text. -/
def invalidText : IoFailure := ⟨"InvalidData", "stream did not contain valid UTF-8"⟩

end IoFailure

/-- What there is at a place. -/
inductive Node where
  | directory
  | file (content : ByteArray)

/-- A file system as a process sees it. A place is given by the names that lead to it from the root,
which itself is the empty list. -/
structure FileSystem where
  /-- What there is, place by place. -/
  nodes : List (List String × Node) := []
  /-- The working directory. -/
  cwd : List String := []

namespace FileSystem

/-- Number of bytes that a name can have. -/
def nameLimit : Nat := 255

/-- Number of bytes that a path can have. -/
def pathLimit : Nat := 4095

/-- The node at a place. The working directory and all that it lies in are directories. -/
def find? (fs : FileSystem) (place : List String) : Option Node :=
  if place.isPrefixOf fs.cwd then some .directory else fs.nodes.lookup place

/-- Puts a node at a place. -/
def put (fs : FileSystem) (place : List String) (node : Node) : FileSystem :=
  { fs with nodes := fs.nodes.filter (fun entry => entry.1 ≠ place) ++ [(place, node)] }

/-- The place of a name in a directory, if there is something. -/
def child (fs : FileSystem) (place : List String) (name : String) :
    Except IoFailure (List String) :=
  if nameLimit < name.utf8ByteSize then .error .tooLong
  else
    match fs.find? (place ++ [name]) with
    | some _ => .ok (place ++ [name])
    | none => .error .notFound

/-- Goes on from a place along the pieces of a path. Above the root there is the root. -/
def walk (fs : FileSystem) : List String → List (List Char) → Except IoFailure (List String)
  | place, [] => .ok place
  | place, piece :: pieces =>
    match fs.find? place with
    | some .directory =>
      if piece = [] || piece = ['.'] then walk fs place pieces
      else if piece = ['.', '.'] then walk fs place.dropLast pieces
      else
        match fs.child place (String.ofList piece) with
        | .ok place => walk fs place pieces
        | .error failure => .error failure
    | some (.file _) => .error .notDirectory
    | none => .error .notFound

/-- The place where a path begins. -/
def startOf (fs : FileSystem) (path : String) : List String :=
  if path.toList.head? = some '/' then [] else fs.cwd

/-- The place that a path leads to. -/
def resolve (fs : FileSystem) (path : String) : Except IoFailure (List String) :=
  if pathLimit < path.utf8ByteSize then .error .tooLong
  else fs.walk (fs.startOf path) (Path.pieces path.toList)

/-- Reads a file. -/
def readFile (fs : FileSystem) (path : String) : Except IoFailure ByteArray := do
  let place ← fs.resolve path
  match fs.find? place with
  | some (.file content) => .ok content
  | some .directory => .error .isDirectory
  | none => .error .notFound

/-- The text in the content of a file. -/
def textOf (content : ByteArray) : Except IoFailure String :=
  match String.fromUTF8? content with
  | some text => .ok text
  | none => .error .invalidText

/-- The place of a file that is opened to be written in a directory, a new one or an old one. -/
def slot (fs : FileSystem) (directory : List String) (name : String) :
    Except IoFailure (List String) :=
  if nameLimit < name.utf8ByteSize then .error .tooLong
  else
    match fs.find? (directory ++ [name]) with
    | some .directory => .error .isDirectory
    | _ => .ok (directory ++ [name])

/-- The place of a file that is opened to be written under a path. A path that ends in a slash or in
dots means a directory. -/
def target (fs : FileSystem) (path : String) : Except IoFailure (List String) :=
  let slash := path.toList.getLast? = some '/'
  if pathLimit < path.utf8ByteSize then .error .tooLong
  else
    match (Path.pieces path.toList).reverse.dropWhile (· = []) with
    | [] => .error .isDirectory
    | last :: before => do
      let directory ← fs.walk (fs.startOf path) before.reverse
      match fs.find? directory with
      | none => .error .notFound
      | some (.file _) => .error .notDirectory
      | some .directory =>
        if slash || Path.ofPiece? last ≠ some (.name last) then .error .isDirectory
        else fs.slot directory (String.ofList last)

end FileSystem

end YaccGrammar
