import YaccGrammar.FileSystem
import YaccGrammar.Proofs.Path

/-!
# Files that are written

Putting a file somewhere makes its path lead to a file with the new content, and changes nothing
else. A path through a directory still leads where it led, because a file never takes the place of a
directory.

## Main statements

- `find?_put`: what is found when a node has been put somewhere.
- `PutsFile.walk_eq`: paths to directories when a file has been put somewhere.
- `stores_of_target`: what is under a path when a file has been put where the path was opened.
- `exists_of_readFile`: where a file is found that can be read.
-/

namespace YaccGrammar

namespace FileSystem

variable {fs fs' : FileSystem} {place place' : List String} {node : Node} {content : ByteArray}
  {path : String}

/-! ## Nodes -/

/-- A filter that looks at places only decides at which places something is found. -/
theorem lookup_filter (nodes : List (List String × Node)) (p : List String → Bool)
    (place : List String) :
    (nodes.filter fun entry => p entry.1).lookup place =
      if p place then nodes.lookup place else none := by
  induction nodes with
  | nil => simp
  | cons entry nodes ih =>
    obtain ⟨place', node⟩ := entry
    rw [List.filter_cons, List.lookup_cons]
    by_cases hself : place = place'
    · -- the entry is the one that is looked for, if the filter keeps it
      subst hself
      cases hp : p place with
      | true => simp
      | false => simp [hp, ih]
    · -- the entry is another one, and makes no difference whether it is kept or not
      have hother : (place == place') = false := beq_eq_false_iff_ne.mpr hself
      cases hp : p place' with
      | true => simp [List.lookup_cons, hother, ih]
      | false => simp [hother, ih]

/-- The working directory and what it lies in are directories. -/
theorem find?_above (h : place <+: fs.cwd) : fs.find? place = some .directory :=
  if_pos (List.isPrefixOf_iff_prefix.mpr h)

/-- What is no directory is found in the list of nodes. -/
theorem find?_eq_lookup (h : fs.find? place ≠ some .directory) :
    place.isPrefixOf fs.cwd = false ∧ fs.find? place = fs.nodes.lookup place := by
  have hprefix : ¬ place.isPrefixOf fs.cwd = true := fun hprefix => h (if_pos hprefix)
  exact ⟨eq_false_of_ne_true hprefix, if_neg hprefix⟩

/-- What is found when a node has been put where no directory is. -/
theorem find?_put (hfree : fs.find? place ≠ some .directory) (node : Node)
    (place' : List String) :
    (fs.put place node).find? place' = if place' = place then some node else fs.find? place' := by
  -- the node that is put stands behind all others, and the one that it replaces is gone
  have hlookup : (fs.put place node).nodes.lookup place' =
      if place' = place then some node else fs.nodes.lookup place' := by
    rw [put, List.lookup_append, lookup_filter fs.nodes (fun p => p ≠ place)]
    by_cases hself : place' = place
    · simp [hself]
    · have hother : (place' == place) = false := beq_eq_false_iff_ne.mpr hself
      simp [hself, List.lookup_cons, hother]
  have hcwd : (fs.put place node).cwd = fs.cwd := rfl
  unfold find?
  rw [hlookup, hcwd]
  by_cases hself : place' = place
  · -- no node hides behind the way to the working directory
    rw [hself, (find?_eq_lookup hfree).1]
    simp
  · rw [if_neg hself, if_neg hself]

/-! ## Paths -/

/-- A path can be followed up to somewhere, and on from there. -/
theorem walk_append (fs : FileSystem) (place : List String) (pieces pieces' : List (List Char)) :
    fs.walk place (pieces ++ pieces') = (fs.walk place pieces).bind (fs.walk · pieces') := by
  induction pieces generalizing place with
  | nil => rfl
  | cons piece pieces ih =>
    rw [List.cons_append, walk, walk]
    cases fs.find? place with
    | none => rfl
    | some node =>
      cases node with
      | file content => rfl
      | directory =>
        -- dots lead to a directory that is there, a name to what is looked up
        dsimp only
        split
        · exact ih place
        split
        · exact ih place.dropLast
        cases fs.child place (String.ofList piece) with
        | error failure => rfl
        | ok place' => exact ih place'

/-- A name leads to something that is in the directory, if it is not too long. -/
theorem child_eq_ok_iff {name : String} : fs.child place name = .ok place' ↔
    name.utf8ByteSize ≤ nameLimit ∧ place' = place ++ [name] ∧
      ∃ node, fs.find? (place ++ [name]) = some node := by
  rw [child]
  split
  · next hlong => simp [Nat.not_le.mpr hlong]
  · next hshort =>
    cases hnode : fs.find? (place ++ [name]) with
    | none => simp
    | some node => simp [Nat.not_lt.mp hshort, eq_comm]

/-- A path that is not too long leads where its pieces do. -/
theorem resolve_eq_ok_iff : fs.resolve path = .ok place ↔
    path.utf8ByteSize ≤ pathLimit ∧
      fs.walk (fs.startOf path) (Path.pieces path.toList) = .ok place := by
  rw [resolve]
  split
  · next hlong => simp [Nat.not_le.mpr hlong]
  · next hshort => simp [Nat.not_lt.mp hshort]

/-- What is read is the content of the file that the path leads to. -/
theorem readFile_eq_ok_iff : fs.readFile path = .ok content ↔
    ∃ place, fs.resolve path = .ok place ∧ fs.find? place = some (.file content) := by
  rw [readFile]
  cases fs.resolve path with
  | error failure =>
    dsimp only [Bind.bind, Except.bind]
    simp
  | ok place =>
    dsimp only [Bind.bind, Except.bind]
    cases hnode : fs.find? place with
    | none => simp [hnode]
    | some node =>
      cases node with
      | directory => simp [hnode]
      | file content' => simp [hnode]

/-- A file was put where no directory is. -/
structure PutsFile (fs : FileSystem) (place : List String) (fs' : FileSystem) : Prop where
  no_directory : fs.find? place ≠ some .directory
  put : ∃ content, fs' = fs.put place (.file content)

namespace PutsFile

/-- The working directory is the same. -/
theorem startOf_eq (h : PutsFile fs place fs') (path : String) :
    fs'.startOf path = fs.startOf path := by
  obtain ⟨content, rfl⟩ := h.put
  rfl

/-- What is a directory stays one. -/
theorem find?_eq (h : PutsFile fs place fs') (hplace : fs.find? place' = some .directory) :
    fs'.find? place' = some .directory := by
  obtain ⟨content, rfl⟩ := h.put
  have hother : place' ≠ place := fun heq => h.no_directory (heq ▸ hplace)
  rw [find?_put h.no_directory, if_neg hother]
  exact hplace

/-- What a name leads to stays there. -/
theorem child_eq (h : PutsFile fs place fs') {directory : List String} {name : String}
    (hchild : fs.child directory name = .ok place') : fs'.child directory name = .ok place' := by
  obtain ⟨content, rfl⟩ := h.put
  obtain ⟨hshort, rfl, node, hnode⟩ := child_eq_ok_iff.mp hchild
  refine child_eq_ok_iff.mpr ⟨hshort, rfl, ?_⟩
  -- there may be another node now, but there still is one
  rw [find?_put h.no_directory]
  split
  · exact ⟨_, rfl⟩
  · exact ⟨node, hnode⟩

/-- Paths to directories lead where they led. -/
theorem walk_eq (h : PutsFile fs place fs') {pieces : List (List Char)} {start : List String}
    (hwalk : fs.walk start pieces = .ok place') : fs'.walk start pieces = .ok place' := by
  induction pieces generalizing start with
  | nil => exact hwalk
  | cons piece pieces ih =>
    rw [walk] at hwalk ⊢
    cases hnode : fs.find? start with
    | none =>
      rw [hnode] at hwalk
      cases hwalk
    | some node =>
      cases node with
      | file content =>
        rw [hnode] at hwalk
        cases hwalk
      | directory =>
        -- what the path goes through are directories, and these are still there
        rw [hnode] at hwalk
        rw [h.find?_eq hnode]
        dsimp only at hwalk ⊢
        split
        · next hdot =>
          rw [if_pos hdot] at hwalk
          exact ih hwalk
        next hdot =>
        rw [if_neg hdot] at hwalk
        split
        · next hup =>
          rw [if_pos hup] at hwalk
          exact ih hwalk
        next hup =>
        rw [if_neg hup] at hwalk
        cases hchild : fs.child start (String.ofList piece) with
        | error failure =>
          rw [hchild] at hwalk
          cases hwalk
        | ok next =>
          rw [hchild] at hwalk
          rw [h.child_eq hchild]
          exact ih hwalk

/-- A path that leads somewhere leads there still. -/
theorem resolve_eq (h : PutsFile fs place fs') (hpath : fs.resolve path = .ok place') :
    fs'.resolve path = .ok place' := by
  obtain ⟨hshort, hwalk⟩ := resolve_eq_ok_iff.mp hpath
  rw [resolve_eq_ok_iff, h.startOf_eq]
  exact ⟨hshort, h.walk_eq hwalk⟩

end PutsFile

/-- A name leads from a directory to what is in it. -/
theorem walk_name {piece : List Char} (hpiece : Path.IsName piece)
    (hdirectory : fs.find? place = some .directory) :
    fs.walk place [piece] = fs.child place (String.ofList piece) := by
  obtain ⟨hne, hdot, hup⟩ := Path.isName_iff.mp hpiece
  rw [walk, hdirectory]
  cases hchild : fs.child place (String.ofList piece) with
  | error failure => simp [hne, hdot, hup]
  | ok place' => simp [hne, hdot, hup, walk]

/-! ## Writing -/

/-- Where a file is opened to be written: in a directory, under the name at the end of the path. -/
inductive Opens (fs : FileSystem) (path : String) : List String → Prop where
  | intro {before : List (List Char)} {last : List Char} {directory : List String}
      (hpath : path.utf8ByteSize ≤ pathLimit)
      (hpieces : Path.pieces path.toList = before ++ [last])
      (hname : Path.IsName last)
      (hshort : (String.ofList last).utf8ByteSize ≤ nameLimit)
      (hwalk : fs.walk (fs.startOf path) before = .ok directory)
      (hdirectory : fs.find? directory = some .directory)
      (hfree : fs.find? (directory ++ [String.ofList last]) ≠ some .directory) :
      Opens fs path (directory ++ [String.ofList last])

/-- A file is opened in a directory unless its name is too long or that of a directory. -/
theorem slot_eq_ok_iff {directory : List String} {name : String} :
    fs.slot directory name = .ok place ↔
      name.utf8ByteSize ≤ nameLimit ∧ fs.find? (directory ++ [name]) ≠ some .directory ∧
        place = directory ++ [name] := by
  rw [slot]
  split
  · next hlong => simp [Nat.not_le.mpr hlong]
  · next hshort =>
    split
    · -- there is a directory in this place
      next hnode => simp [hnode]
    · next hfree =>
      rw [Except.ok.injEq, eq_comm, and_iff_right (Nat.not_lt.mp hshort), and_iff_right hfree]

/-- A path that can be opened to be written leads to a name in a directory. -/
theorem opens_of_target (h : fs.target path = .ok place) : fs.Opens path place := by
  unfold target at h
  dsimp only at h
  split at h
  · cases h
  next hpath =>
  split at h
  · cases h
  next last before hnamed =>
  -- the path in front of the name leads to a node
  cases hwalk : fs.walk (fs.startOf path) before.reverse with
  | error failure =>
    rw [hwalk] at h
    cases h
  | ok directory =>
    rw [hwalk] at h
    -- which has to be a directory
    dsimp only [Bind.bind, Except.bind] at h
    split at h
    · cases h
    · cases h
    next hnode =>
    split at h
    · cases h
    next hname =>
    -- the path does not end in a slash, so its last piece is the name
    simp only [Bool.or_eq_true, decide_eq_true_eq, not_or, not_not] at hname
    obtain ⟨hslash, hlast⟩ := hname
    obtain ⟨hshort, hfree, rfl⟩ := slot_eq_ok_iff.mp h
    exact .intro (Nat.not_lt.mp hpath) (Path.pieces_eq_of_named hslash hnamed) hlast hshort hwalk
      hnode hfree

/-- A file that is put where one was opened takes no directory's place. -/
theorem Opens.putsFile (h : fs.Opens path place) (content : ByteArray) :
    PutsFile fs place (fs.put place (.file content)) := by
  cases h with
  | intro _ _ _ _ _ _ hfree => exact ⟨hfree, content, rfl⟩

/-- The path leads to a file that is put where it was opened. -/
theorem Opens.resolve_eq (h : fs.Opens path place) (content : ByteArray) :
    (fs.put place (.file content)).resolve path = .ok place := by
  have hputs := h.putsFile content
  cases h with
  | @intro before last directory hpath hpieces hname hshort hwalk hdirectory hfree =>
    -- the directory is found as before, and in it the file
    have hnode := hputs.find?_eq hdirectory
    have hfound := find?_put hfree (.file content) (directory ++ [String.ofList last])
    rw [if_pos rfl] at hfound
    rw [resolve_eq_ok_iff, hputs.startOf_eq, hpieces, walk_append, hputs.walk_eq hwalk]
    refine ⟨hpath, (walk_name hname hnode).trans ?_⟩
    exact child_eq_ok_iff.mpr ⟨hshort, rfl, _, hfound⟩

/-- The path leads to a file with the content, and everything else is as it was. -/
structure Stores (fs : FileSystem) (path : String) (content : ByteArray) (fs' : FileSystem) :
    Prop where
  readFile_eq : fs'.readFile path = .ok content
  others : ∀ place, fs'.resolve path ≠ .ok place → fs'.find? place = fs.find? place
  cwd_eq : fs'.cwd = fs.cwd

/-- What is put where a path was opened is stored under the path. -/
theorem stores_of_target (h : fs.target path = .ok place) (content : ByteArray) :
    fs.Stores path content (fs.put place (.file content)) := by
  have hopens := opens_of_target h
  have hfree := (hopens.putsFile content).no_directory
  have hpath := hopens.resolve_eq content
  refine ⟨readFile_eq_ok_iff.mpr ⟨place, hpath, ?_⟩, fun place' hother => ?_, rfl⟩
  · -- the content is what was put there
    rw [find?_put hfree, if_pos rfl]
  · rw [find?_put hfree, if_neg]
    rintro rfl
    exact hother hpath

/-! ## Reading -/

/-- What lies above a place are directories. -/
def Reached (fs : FileSystem) (place : List String) : Prop :=
  ∀ above below, place = above ++ below → below ≠ [] → fs.find? above = some .directory

/-- What lies above the place where a path begins are directories. -/
theorem reached_startOf (fs : FileSystem) (path : String) : fs.Reached (fs.startOf path) := by
  intro above below hplace hbelow
  unfold startOf at hplace
  split at hplace
  · -- nothing lies above the root
    exact absurd (List.append_eq_nil_iff.mp hplace.symm).2 hbelow
  · exact find?_above ⟨below, hplace.symm⟩

/-- One step up from a place there is a directory. -/
theorem Reached.find?_dropLast (h : fs.Reached place) :
    fs.find? place.dropLast = some .directory := by
  by_cases hroot : place = []
  · -- above the root there is the root
    rw [hroot]
    exact find?_above List.nil_prefix
  · exact h place.dropLast [place.getLast hroot] (List.dropLast_concat_getLast hroot).symm
      (List.cons_ne_nil _ _)

/-- What lies above a directory are directories. -/
theorem Reached.dropLast (h : fs.Reached place) : fs.Reached place.dropLast := by
  intro above below hplace hbelow
  by_cases hroot : place = []
  · rw [hroot] at hplace
    exact absurd (List.append_eq_nil_iff.mp hplace.symm).2 hbelow
  · -- what lies above the directory lies above what is in it
    apply h above (below ++ [place.getLast hroot])
    · rw [← List.append_assoc, ← hplace, List.dropLast_concat_getLast]
    · simp

/-- What lies above a node of a directory are directories. -/
theorem Reached.child {name : String} (h : fs.Reached place)
    (hnode : fs.find? place = some .directory) (hchild : fs.child place name = .ok place') :
    fs.Reached place' := by
  obtain ⟨-, rfl, -⟩ := child_eq_ok_iff.mp hchild
  intro above below hplace hbelow
  -- either the name is all that lies below, or it is the last of what does
  rcases List.eq_nil_or_concat below with rfl | ⟨below, last, rfl⟩
  · exact absurd rfl hbelow
  rw [List.concat_eq_append, ← List.append_assoc] at hplace
  obtain ⟨rfl, -⟩ := List.append_inj' hplace rfl
  by_cases hbelow' : below = []
  · subst hbelow'
    rw [List.append_nil] at hnode
    exact hnode
  · exact h above below rfl hbelow'

/-- A path leads through directories. -/
theorem Reached.walk {pieces : List (List Char)} (h : fs.Reached place)
    (hwalk : fs.walk place pieces = .ok place') : fs.Reached place' := by
  induction pieces generalizing place with
  | nil =>
    cases hwalk
    exact h
  | cons piece pieces ih =>
    rw [FileSystem.walk] at hwalk
    split at hwalk
    · next hnode =>
      -- a piece that says nothing, two dots, or a name
      split at hwalk
      · exact ih h hwalk
      split at hwalk
      · exact ih h.dropLast hwalk
      split at hwalk
      · next hchild => exact ih (h.child hnode hchild) hwalk
      · cases hwalk
    · cases hwalk
    · cases hwalk

/-- A file is read in a directory, under the name at the end of the path. -/
theorem exists_of_readFile (h : fs.readFile path = .ok content) :
    ∃ before last directory, Path.pieces path.toList = before ++ [last] ∧ Path.IsName last ∧
      (String.ofList last).utf8ByteSize ≤ nameLimit ∧
      fs.resolve path = .ok (directory ++ [String.ofList last]) ∧
      fs.find? (directory ++ [String.ofList last]) = some (.file content) := by
  obtain ⟨place, hpath, hfile⟩ := readFile_eq_ok_iff.mp h
  obtain ⟨-, hwalk⟩ := resolve_eq_ok_iff.mp hpath
  obtain hnil | ⟨before, last, hpieces⟩ := List.eq_nil_or_concat (Path.pieces path.toList)
  · exact absurd hnil (Path.pieces_ne_nil _)
  rw [List.concat_eq_append] at hpieces
  rw [hpieces, walk_append] at hwalk
  cases hbefore : fs.walk (fs.startOf path) before with
  | error failure =>
    rw [hbefore] at hwalk
    cases hwalk
  | ok directory =>
    rw [hbefore, Except.bind] at hwalk
    have hreached := (fs.reached_startOf path).walk hbefore
    -- where the last piece is no name, the path ends at a directory
    rw [walk] at hwalk
    split at hwalk
    · next hnode =>
      split at hwalk
      · cases hwalk
        rw [hnode] at hfile
        cases hfile
      next hdot =>
      split at hwalk
      · cases hwalk
        rw [hreached.find?_dropLast] at hfile
        cases hfile
      next hup =>
      simp only [Bool.or_eq_true, decide_eq_true_eq, not_or] at hdot
      have hlast := Path.isName_iff.mpr ⟨hdot.1, hdot.2, hup⟩
      split at hwalk
      · next hchild =>
        cases hwalk
        obtain ⟨hshort, rfl, -⟩ := child_eq_ok_iff.mp hchild
        exact ⟨before, last, directory, hpieces, hlast, hshort, hpath, hfile⟩
      · cases hwalk
    · cases hwalk
    · cases hwalk

end FileSystem

end YaccGrammar
