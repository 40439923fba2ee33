import Mathlib.Algebra.Order.Floor.Div
import Mathlib.Data.Nat.Digits.Defs
import Mathlib.Order.Bounds.Defs
import YaccGrammar.Proofs.Grammar.History

/-!
# The listing of the symbols

The symbols are listed in columns. The number of rows is that of the columns that are needed, not
the other way round, so the last columns may be short or missing; still every symbol has a cell, and
columns are read in the order of the view. This holds for any number of names of any widths, as long
as the widest one fits in a field.

## Main statements

- `getElem?_rowCells`: the cell of a row in a column.
- `flatMap_columns`: columns that are read one after the other show the whole list.
- `length_renderRow`, `columnCount_mul_le`: how wide a row is, and that it fits on a line.
- `listing_of_sorted`: the listing of every sorted table.
-/

namespace YaccGrammar.Report

open Fault

/-! ## Rows and columns -/

section Columns

variable {α : Type}

/-- What is found at the first positions is the beginning of the list. -/
theorem filterMap_getElem?_range (l : List α) (m : Nat) :
    (List.range m).filterMap (l[·]?) = l.take m := by
  induction m with
  | zero => rfl
  | succ m ih =>
    rw [List.range_succ, List.filterMap_append, ih, List.take_add_one]
    cases h : l[m]? <;> simp [h]

/-- Pieces of the same length, one after the other. -/
theorem flatMap_pieces (l : List α) (length count : Nat) :
    ((List.range count).flatMap fun c => (l.drop (c * length)).take length) =
      l.take (count * length) := by
  induction count with
  | zero => simp
  | succ count ih =>
    rw [List.range_succ, List.flatMap_append, ih, Nat.succ_mul, List.take_add]
    simp

/-- Rows that are read column by column show the same as rows that are read one by one. -/
theorem flatMap_columns_perm {rows : List (List α)} {m : Nat} (h : ∀ row ∈ rows, row.length ≤ m) :
    ((List.range m).flatMap fun c => rows.filterMap (·[c]?)).Perm rows.flatten := by
  induction rows with
  | nil => simp
  | cons row rows ih =>
    obtain ⟨hrow, hrows⟩ := List.forall_mem_cons.mp h
    have hcons (c : Nat) : (row :: rows).filterMap (·[c]?) =
        row[c]?.toList ++ rows.filterMap (·[c]?) := by
      cases hc : row[c]? <;> simp [hc]
    -- the first row holds at most one cell of each column
    have hfirst : ((List.range m).flatMap fun c => row[c]?.toList) = row := by
      rw [← List.filterMap_eq_flatMap_toList, filterMap_getElem?_range, List.take_of_length_le hrow]
    simp only [hcons]
    -- of every column, the cell in the first row is taken out
    refine (List.flatMap_append_perm _ _ _).symm.trans ?_
    rw [hfirst, List.flatten_cons]
    exact (ih hrows).append_left row

/-- Positions with the same remainder are reached in equal steps. -/
theorem filter_mod_range {m r : Nat} (hr : r < m) (n : Nat) :
    ((List.range n).filter fun i => i % m = r) =
      (List.range ((n - r) ⌈/⌉ m)).map fun k => r + k * m := by
  have hm : 0 < m := Nat.zero_lt_of_lt hr
  -- both sides ascend, so it is enough that they have the same members
  refine (List.pairwise_lt_range.filter _).eq_of_mem_iff ?_ fun i => ?_
  · rw [List.pairwise_map]
    exact List.pairwise_lt_range.imp fun hab =>
      Nat.add_lt_add_left (Nat.mul_lt_mul_of_pos_right hab hm) r
  · have hlast (k : Nat) : k < (n - r) ⌈/⌉ m ↔ r + k * m < n := by
      rw [← not_le, ceilDiv_le_iff_le_mul hm, Nat.mul_comm]
      omega
    simp only [List.mem_filter, List.mem_map, List.mem_range, decide_eq_true_eq, hlast]
    constructor
    · rintro ⟨hi, rfl⟩
      have hdiv : i % m + i / m * m = i := Nat.mod_add_div' i m
      exact ⟨i / m, hdiv.symm ▸ hi, hdiv⟩
    · rintro ⟨k, hk, rfl⟩
      refine ⟨hk, ?_⟩
      rw [Nat.add_mul_mod_self_right, Nat.mod_eq_of_lt hr]

end Columns

section Table

variable {names : List String} {columns rows row : Nat}

/-- The cell of a row in a column. -/
theorem getElem?_rowCells (names : List String) (hrow : row < rows) (column : Nat) :
    (rowCells names rows row)[column]? = names.zipIdx[column * rows + row]? := by
  have hrows : 0 < rows := Nat.zero_lt_of_lt hrow
  have hcells : rowCells names rows row =
      ((List.range ((names.length - row) ⌈/⌉ rows)).map fun k => row + k * rows).map
        fun i => (names.getD i "", i) := by
    rw [← filter_mod_range hrow, rowCells, Guarded.zipIdx_eq_map_range, List.filter_map]
    rfl
  -- the row has a cell in the column just if the list is long enough
  have hlast : (names.length - row) ⌈/⌉ rows ≤ column ↔ names.length ≤ column * rows + row := by
    rw [ceilDiv_le_iff_le_mul hrows, Nat.mul_comm]
    omega
  rw [hcells, Guarded.zipIdx_eq_map_range, List.map_map, List.getElem?_map, List.getElem?_map]
  rcases Nat.lt_or_ge column ((names.length - row) ⌈/⌉ rows) with hcolumn | hcolumn
  · have hindex : column * rows + row < names.length := Nat.lt_of_not_le fun h =>
      Nat.not_le.mpr hcolumn (hlast.mpr h)
    rw [List.getElem?_range hcolumn, List.getElem?_range hindex, Option.map_some, Option.map_some,
      Function.comp_apply, Nat.add_comm row]
  · rw [List.getElem?_eq_none (by simpa using hcolumn),
      List.getElem?_eq_none (by simpa using hlast.mp hcolumn)]
    rfl

/-- There is room for all names. -/
theorem length_le_rowCount (n : Nat) (hcolumns : 0 < columns) : n ≤ columns * rowCount n columns :=
  le_smul_ceilDiv hcolumns

/-- No row has more cells than there are columns. -/
theorem length_rowCells_le (hcolumns : 0 < columns) (hrow : row < rowCount names.length columns) :
    (rowCells names (rowCount names.length columns) row).length ≤ columns := by
  rw [← List.getElem?_eq_none_iff, getElem?_rowCells names hrow, List.getElem?_eq_none_iff,
    List.length_zipIdx]
  exact (length_le_rowCount names.length hcolumns).trans (Nat.le_add_right _ row)

/-- Columns that are read one after the other show the whole list. -/
theorem flatMap_columns (names : List String) (hcolumns : 0 < columns) :
    ((List.range columns).flatMap fun c =>
      ((List.range (rowCount names.length columns)).map
        (rowCells names (rowCount names.length columns))).filterMap (·[c]?)) = names.zipIdx := by
  -- a column is the piece of the list that begins where the column before it ends
  have hcolumn (c : Nat) : ((List.range (rowCount names.length columns)).map
        (rowCells names (rowCount names.length columns))).filterMap (·[c]?) =
      (names.zipIdx.drop (c * rowCount names.length columns)).take
        (rowCount names.length columns) := by
    rw [← filterMap_getElem?_range, List.filterMap_map]
    apply List.filterMap_congr
    intro row hrow
    rw [Function.comp_apply, getElem?_rowCells names (List.mem_range.mp hrow), List.getElem?_drop]
  simp only [hcolumn]
  rw [flatMap_pieces, List.take_of_length_le]
  rw [List.length_zipIdx]
  exact length_le_rowCount names.length hcolumns

end Table

/-! ## Widths -/

section Widths

variable {width : Nat} {cell : String × Nat} {cells : List (String × Nat)}

/-- A cell with its whole name, filled up with blanks. -/
def wholeCell (width : Nat) (cell : String × Nat) : String :=
  " " ++ padLeft 3 (toString cell.2) ++ " " ++
    (cell.1 ++ String.ofList (List.replicate (width - cell.1.toList.length) ' '))

/-- A name that fits in its field is not cut off. -/
theorem renderCell_eq_wholeCell (h : cell.1.toList.length ≤ width) :
    renderCell width cell = wholeCell width cell := by
  rw [renderCell, wholeCell, fit, List.take_of_length_le h, String.ofList_append,
    String.ofList_toList]

/-- A field is as wide as it should be, whatever the name. -/
theorem length_fit (width : Nat) (name : String) : (fit width name).toList.length = width := by
  simp [fit]

/-- What is padded is at least as wide as the padding makes it. -/
theorem length_padLeft (width : Nat) (text : String) :
    (padLeft width text).toList.length = max width text.toList.length := by
  simp [padLeft]
  omega

/-- A number of three digits takes three characters. -/
theorem length_renderCell (h : cell.2 < 1000) :
    (renderCell width cell).toList.length = width + 5 := by
  -- a number below a thousand has at most three digits
  have hdigits : (toString cell.2).toList.length ≤ 3 := by
    rw [String.length_toList]
    exact Nat.repr_length cell.2 3 (by decide) h
  simp only [renderCell, String.toList_append, List.length_append, length_fit, length_padLeft,
    Nat.max_eq_left hdigits]
  simp
  omega

/-- A row is as wide as its cells and the mark in front of them. -/
theorem length_renderRow (h : ∀ cell ∈ cells, cell.2 < 1000) :
    (renderRow width cells).toList.length = 2 + cells.length * (width + 5) := by
  have hjoin : (String.join (cells.map (renderCell width))).toList.length =
      cells.length * (width + 5) := by
    induction cells with
    | nil => simp
    | cons cell cells ih =>
      obtain ⟨hcell, hcells⟩ := List.forall_mem_cons.mp h
      rw [List.map_cons, String.join_cons, String.toList_append, List.length_append, ih hcells,
        length_renderCell hcell, List.length_cons, Nat.succ_mul, Nat.add_comm]
  rw [renderRow, String.toList_append, List.length_append, hjoin]
  rfl

/-- The columns share the width of a line. -/
theorem columnCount_mul_le (h : width + 5 ≤ lineWidth) :
    columnCount width * (width + 5) ≤ lineWidth := by
  rw [columnCount, Nat.max_eq_right (Nat.div_pos h (Nat.succ_pos _))]
  exact Nat.div_mul_le_self lineWidth (width + 5)

end Widths

/-! ## The listing -/

/-- What is listed, line by line: `rows` are the cells, each a name and its number, in fields of
`width` characters and in as many `columns` as a line has room for. -/
structure Listing (names : List String) (width columns : Nat) (rows : List (List (String × Nat)))
    (lines : List String) : Prop where
  /-- The larger of ten and the width of the longest name. -/
  widest : IsGreatest {w | w = 10 ∨ ∃ n ∈ names, n.toList.length = w} width
  shared : columns = max 1 (76 / (width + 5))
  height : rows.length = names.length ⌈/⌉ columns
  /-- Names are filled up with blanks, and not cut off. -/
  text : lines = rows.map fun cells => "//" ++ String.join (cells.map (wholeCell width))
  /-- Every number is shown once, with the name that has it. -/
  once : rows.flatten.Perm names.zipIdx
  /-- From top to bottom, and from left to right. -/
  order : ((List.range columns).flatMap fun c => rows.filterMap (·[c]?)) = names.zipIdx
  breadth : ∀ cells ∈ rows, cells.length ≤ columns
  narrow : names.length ≤ 1000 → width ≤ 71 → ∀ line ∈ lines, line.toList.length ≤ 78

/-- The width of the fields is the largest that is asked for. -/
theorem isGreatest_nameWidth (names : List String) :
    IsGreatest {w | w = 10 ∨ ∃ n ∈ names, n.toList.length = w} (nameWidth names) := by
  obtain ⟨hmin, hnames⟩ := Guarded.nameWidth_le_iff.mp (Nat.le_refl (nameWidth names))
  constructor
  · -- otherwise a smaller width would do
    by_contra hnot
    rw [Set.mem_ofPred_eq, not_or, not_exists] at hnot
    have hless : nameWidth names ≤ nameWidth names - 1 := by
      refine Guarded.nameWidth_le_iff.mpr ⟨?_, fun n hn => ?_⟩
      · exact Nat.le_sub_one_of_lt (lt_of_le_of_ne hmin (Ne.symm hnot.1))
      · exact Nat.le_sub_one_of_lt (lt_of_le_of_ne (hnames n hn) fun h => hnot.2 n ⟨hn, h⟩)
    -- the width is at least ten, so it can be lowered by one
    have hpos : 0 < nameWidth names := Nat.lt_of_lt_of_le (by decide) hmin
    omega
  · rintro w (rfl | ⟨n, hn, rfl⟩)
    · exact hmin
    · exact hnames n hn

/-- Names that fit in a field are listed. -/
theorem listing_of_names {names : List String} (h : nameWidth names ≤ fieldLimit) :
    ∃ lines, columnLines names = .ok lines ∧
      Listing names (nameWidth names) (columnCount (nameWidth names)) (table names) lines := by
  have hcolumns : 0 < columnCount (nameWidth names) := Nat.le_max_left ..
  have hbreadth : ∀ cells ∈ table names, cells.length ≤ columnCount (nameWidth names) := by
    refine List.forall_mem_map.mpr fun row hrow => ?_
    exact length_rowCells_le hcolumns (List.mem_range.mp hrow)
  -- every cell holds a name that is listed, at a position that exists
  have hcell : ∀ cells ∈ table names, ∀ cell ∈ cells,
      cell.1 ∈ names ∧ cell.2 < names.length := by
    refine List.forall_mem_map.mpr fun row _ cell hmem => ?_
    obtain ⟨hindex, hname⟩ := List.mem_zipIdx' (List.mem_of_mem_filter hmem)
    exact ⟨hname ▸ List.getElem_mem hindex, hindex⟩
  refine ⟨_, by rw [columnLines, if_neg (Nat.not_lt.mpr h)], ?_⟩
  constructor
  case widest => exact isGreatest_nameWidth names
  case shared => rfl
  case height =>
    rw [table, List.length_map, List.length_range]
    rfl
  case text =>
    refine List.map_congr_left fun cells hmem => ?_
    have hcells : cells.map (renderCell (nameWidth names)) =
        cells.map (wholeCell (nameWidth names)) := by
      refine List.map_congr_left fun cell hmem' => renderCell_eq_wholeCell ?_
      exact (isGreatest_nameWidth names).2 (.inr ⟨_, (hcell cells hmem cell hmem').1, rfl⟩)
    rw [renderRow, hcells]
  case once =>
    rw [← flatMap_columns names hcolumns]
    exact (flatMap_columns_perm hbreadth).symm
  case order => exact flatMap_columns names hcolumns
  case breadth => exact hbreadth
  case narrow =>
    intro hcount hwidth
    refine List.forall_mem_map.mpr fun cells hmem => ?_
    rw [length_renderRow fun cell hmem' => (hcell cells hmem cell hmem').2.trans_le hcount]
    -- two characters for the mark, and at most 76 for the cells
    calc 2 + cells.length * (nameWidth names + 5)
      _ ≤ 2 + columnCount (nameWidth names) * (nameWidth names + 5) :=
        Nat.add_le_add_left (Nat.mul_le_mul_right _ (hbreadth cells hmem)) 2
      _ ≤ 2 + 76 := Nat.add_le_add_left (columnCount_mul_le (Nat.add_le_add_right hwidth 5)) 2
      _ = 78 := rfl

/-! ## Tables -/

/-- How a table is listed: position by position, unless a name fits in no field. -/
structure Listed (g : Grammar) (view : List SymbolId) : Prop where
  sorted : g.table.sorted = .ok view
  length : view.length = g.table.size
  name : ∀ i < g.table.size, ∃ id, g.table.atIndex i = .ok id ∧
    (view.map g.name)[i]? = some (g.name id)
  lines : nameWidth (view.map g.name) ≤ fieldLimit ∧ (∃ columns rows lines,
      Guarded.columnLines g view = .ok lines ∧ columnLines (view.map g.name) = .ok lines ∧
      Listing (view.map g.name) (nameWidth (view.map g.name)) columns rows lines) ∨
    fieldLimit < nameWidth (view.map g.name) ∧ Guarded.columnLines g view = .error .wideField

/-- A consistent table whose view is fresh is listed position by position. -/
theorem listed_of_consistent {g : Grammar} (hg : g.table.Consistent)
    (hfresh : g.table.stale = false) : Listed g g.table.byName := by
  have hsorted : g.table.sorted = .ok g.table.byName := by
    rw [SymbolTable.sorted, hfresh, hg.view hfresh]
    rfl
  have hlength : g.table.byName.length = g.table.size := by
    rw [g.table.byName_perm.length_eq, List.length_range]
  have hview : ∀ id ∈ g.table.byName, id < g.table.size := fun id => SymbolTable.mem_byName.mp
  have hlines := Guarded.columnLines_eq hview
  constructor
  case sorted => exact hsorted
  case length => exact hlength
  case name =>
    intro i hi
    have hview := List.getElem?_eq_getElem (hi.trans_eq hlength.symm)
    refine ⟨_, (SymbolTable.atIndex_eq_ok_iff hsorted i _).mpr hview, ?_⟩
    rw [List.getElem?_map, hview, Option.map_some]
  case lines =>
    rcases Nat.lt_or_ge fieldLimit (nameWidth (g.table.byName.map g.name)) with hwide | hnarrow
    · refine .inr ⟨hwide, ?_⟩
      rw [hlines, columnLines, if_pos hwide]
    · obtain ⟨lines, hok, hlisting⟩ := listing_of_names hnarrow
      exact .inl ⟨hnarrow, _, _, lines, hlines.trans hok, hok, hlisting⟩

open Grammar in
/-- Whatever the calls are: once the table is sorted, its symbols are listed, each one at its
position, in as few rows as there can be, and within the width of a line if names and numbers are
not too long. There is no listing only if a name fits in no field. -/
theorem listing_of_sorted (cs : List Call) :
    (∃ g view, calls {} (cs ++ [.sort]) = .ok g ∧ Valid cs ∧ Listed g view) ∨
      calls {} (cs ++ [.sort]) = .error .outOfRange ∧ ¬ Valid cs := by
  rw [calls_concat]
  rcases tracks_calls cs with ⟨g, hok, hvalid, htracks⟩ | ⟨herror, hvalid⟩
  · have hg := htracks.intact
    have hsort : Call.sort.InRange g.table.size g.rules.length := ⟨nofun, nofun⟩
    refine .inl ⟨g.sorted, g.sorted.table.byName, ?_, hvalid, ?_⟩
    · rw [hok, ok_bind, call, if_pos hsort, hg.perform_eq_ok hsort]
      rfl
    · exact listed_of_consistent hg.sorted.consistent (SymbolTable.stale_sort _)
  · rw [herror]
    exact .inr ⟨rfl, hvalid⟩

open Grammar in
/-- A name that fits in no field is inserted and sorted, but not listed. -/
theorem refused_of_wide {n : String} (h : fieldLimit < n.toList.length) :
    ∃ g, calls {} [.insert n, .sort] = .ok g ∧ g.table.sorted = .ok [0] ∧
      Guarded.columnLines g [0] = .error .wideField := by
  -- the widest of the names is the only one
  have hwide : fieldLimit < nameWidth [n] :=
    h.trans_le ((Guarded.nameWidth_le_iff.mp (Nat.le_refl _)).2 n List.mem_cons_self)
  have hview : ∀ id ∈ [0], id < (intern {} n).2.sorted.table.size :=
    List.forall_mem_singleton.mpr Nat.zero_lt_one
  refine ⟨(intern {} n).2.sorted, rfl, rfl, ?_⟩
  rw [Guarded.columnLines_eq hview, columnLines]
  exact if_pos hwide

open Grammar in
/-- A single symbol whose name is wider than any field is not listed. -/
theorem listing_refused_of_wideName :
    let n := String.ofList (List.replicate 65536 'a')
    ∃ g, calls {} [.insert n, .sort] = .ok g ∧ g.table.sorted = .ok [0] ∧
      Guarded.columnLines g [0] = .error .wideField := by
  intro n
  have hwide : fieldLimit < n.toList.length := by
    rw [String.toList_ofList, List.length_replicate]
    decide
  exact refused_of_wide hwide

end YaccGrammar.Report
