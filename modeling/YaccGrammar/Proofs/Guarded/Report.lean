import YaccGrammar.Guarded.Report
import YaccGrammar.Proofs.Guarded.Analysis
import YaccGrammar.Proofs.Analysis.FirstNames

/-!
# No access fails in the report

The columns are divided and stepped through by positive numbers, every cell stands for a symbol of
the view, and every entry of a first-set is a position in it. So the guarded report on an analysed
grammar is the plain one, and the only fault that it can meet is a name that fits in no field.

## Main statements

- `columnLines_eq`: the columns are laid out as they are without guards.
- `Reportable.analyze`: what the analysis guarantees to the report.
- `Reportable.report_eq`: the guarded report is the plain one.
- `Reportable.report_of_narrow`, `Reportable.report_of_wide`: when there is a report.
-/

namespace YaccGrammar.Guarded

open Fault Report

variable {g : Grammar} {view : List SymbolId} {width rows row : Nat}

/-! ## Columns -/

section Columns

/-- The numbers of a column are those that are reached from its first one in equal steps. -/
theorem mod_eq_iff_steps (hrow : row < rows) (i : Nat) :
    i % rows = row ↔ row ≤ i ∧ (i - row) % rows = 0 := by
  have hself : row % rows = row := Nat.mod_eq_of_lt hrow
  constructor
  · intro h
    exact ⟨h ▸ Nat.mod_le i rows, Nat.sub_mod_eq_zero_of_mod_eq (h.trans hself.symm)⟩
  · rintro ⟨hle, hzero⟩
    calc i % rows
      _ = (row + (i - row)) % rows := by rw [Nat.add_sub_cancel' hle]
      _ = (row + (i - row) % rows) % rows := (Nat.add_mod_mod ..).symm
      _ = row := by rw [hzero, Nat.add_zero, hself]

/-- Every position of a view is that of a cell. -/
theorem zipIdx_eq_map_range (names : List String) :
    names.zipIdx = (List.range names.length).map fun i => (names.getD i "", i) := by
  apply List.ext_getElem
  · simp
  · intro i hi hi'
    simp only [List.length_zipIdx] at hi
    simp [hi]

/-- The cells of a row are reached from the first one in equal steps. -/
theorem rowCells_eq (names : List String) (hrow : row < rows) :
    rowCells names rows row =
      ((List.range names.length).filter fun i =>
        decide (row ≤ i) && (i - row) % rows = 0).map fun i => (names.getD i "", i) := by
  rw [rowCells, zipIdx_eq_map_range, List.filter_map]
  congr 1
  apply List.filter_congr
  intro i _
  simp [mod_eq_iff_steps hrow]

/-- The names of a view are found, since its symbols exist. -/
theorem names_eq_ok (hview : ∀ id ∈ view, id < g.table.size) :
    view.mapM (name g) = .ok (view.map g.name) :=
  mapM_eq_ok fun id hid => name_eq_ok (hview id hid)

/-- A name is found at each position of the view. -/
theorem cellName_eq_ok (hview : ∀ id ∈ view, id < g.table.size) {index : Nat}
    (hindex : index < view.length) :
    (at? view index >>= name g) = .ok ((view.map g.name).getD index "") := by
  rw [at?, List.getElem?_eq_getElem hindex, ok_bind, name_eq_ok (hview _ (List.getElem_mem _))]
  simp [hindex]

/-- A cell is refused if the field is too wide, and printed otherwise. -/
theorem renderCell_eq (hview : ∀ id ∈ view, id < g.table.size) {index : Nat}
    (hindex : index < view.length) :
    renderCell g view width index =
      if fieldLimit < width then .error .wideField
      else .ok (Report.renderCell width ((view.map g.name).getD index "", index)) := by
  have hname := cellName_eq_ok hview hindex
  rw [at?, List.getElem?_eq_getElem hindex, ok_bind] at hname
  rw [renderCell, at?, List.getElem?_eq_getElem hindex, ok_bind, hname]
  rfl

/-- A row is printed if the field is not too wide. -/
theorem renderRow_eq_ok (hview : ∀ id ∈ view, id < g.table.size) (hrow : row < rows)
    (hwidth : width ≤ fieldLimit) :
    renderRow g view width rows row =
      .ok (Report.renderRow width (rowCells (view.map g.name) rows row)) := by
  -- every number of the row is a position in the view
  have hcells : ∀ i ∈ (List.range view.length).filter fun i =>
      decide (row ≤ i) && (i - row) % rows = 0,
      renderCell g view width i =
        .ok (Report.renderCell width ((view.map g.name).getD i "", i)) := by
    intro i hi
    rw [renderCell_eq hview (List.mem_range.mp (List.mem_filter.mp hi).1),
      if_neg (Nat.not_lt.mpr hwidth)]
  rw [renderRow, steps_of_pos (Nat.zero_lt_of_lt hrow), ok_bind, mapM_eq_ok hcells, ok_bind,
    Report.renderRow, rowCells_eq _ hrow, List.length_map, List.map_map]
  rfl

/-- Where names are too wide, the first cell of the first row is refused. -/
theorem renderRow_eq_error (hview : ∀ id ∈ view, id < g.table.size) (hpos : 0 < view.length)
    (hrow : 0 < rows) (hwidth : fieldLimit < width) :
    renderRow g view width rows 0 = .error .wideField := by
  have hfirst : renderCell g view width 0 = .error .wideField := by
    rw [renderCell_eq hview hpos, if_pos hwidth]
  obtain ⟨n, hn⟩ : ∃ n, view.length = n + 1 := Nat.exists_eq_succ_of_ne_zero hpos.ne'
  rw [renderRow, steps_of_pos hrow, ok_bind, hn, List.range_succ_eq_map, List.filter_cons_of_pos,
    mapM_cons_eq_error hfirst]
  · rfl
  · simp

/-- There is a row as soon as there is a symbol. -/
theorem rowCount_pos {n columns : Nat} (hn : 0 < n) (hcolumns : 0 < columns) :
    0 < rowCount n columns :=
  Nat.div_pos (by omega) hcolumns

/-- Neither a divisor nor a step is zero, and every position is one of the view. -/
theorem columnLines_eq (hview : ∀ id ∈ view, id < g.table.size) :
    columnLines g view = Report.columnLines (view.map g.name) := by
  have hcolumns (n : Nat) : 0 < max 1 n := Nat.lt_of_lt_of_le Nat.zero_lt_one (Nat.le_max_left 1 n)
  rw [columnLines, names_eq_ok hview, ok_bind]
  dsimp only
  -- neither divisor is zero
  rw [divide_of_pos (Nat.succ_pos _), ok_bind, divideUp_of_pos (hcolumns _), ok_bind,
    Report.columnLines]
  split
  · next hwide =>
    -- the names are wide, so there is one
    have hpos : 0 < view.length := by
      rw [List.length_pos_iff]
      rintro rfl
      exact absurd (show fieldLimit < nameWidth [] from hwide) (by decide)
    obtain ⟨n, hn⟩ := Nat.exists_eq_succ_of_ne_zero
      (rowCount_pos hpos (hcolumns (lineWidth / (nameWidth (view.map g.name) + 5)))).ne'
    rw [rowCount] at hn
    rw [hn, List.range_succ_eq_map, mapM_cons_eq_error]
    exact renderRow_eq_error hview hpos (Nat.succ_pos n) hwide
  · next hnarrow =>
    rw [mapM_eq_ok fun row hrow =>
      renderRow_eq_ok hview (List.mem_range.mp hrow) (Nat.not_lt.mp hnarrow), table,
      List.map_map, List.length_map]
    rfl

end Columns

/-! ## Analysed grammars -/

/-- What the report relies on: there is a view, and all numbers that occur are those of symbols or
of positions in the view. -/
structure Reportable (g : Grammar) (view : List SymbolId) : Prop where
  sorted : g.table.sorted = .ok view
  symbols : ∀ id ∈ view, id < g.table.size
  inRange : g.InRange
  prec : ∀ r ∈ g.rules, ∀ id, r.precSymbol = some id → id < g.table.size
  firstSet : ∀ id x, g.table.get? id = some x → ∀ i ∈ x.firstSet.toList, i < view.length

/-- The symbol that lends a rule its precedence exists if the symbols of the rule do. -/
theorem rulePrecedence_lt {t : SymbolTable} {r : Rule} {size : Nat}
    (hrhs : ∀ id ∈ r.rhs, id < size) (hprec : ∀ id, r.precSymbol = some id → id < size)
    {id : SymbolId} (hid : Analysis.rulePrecedence t r = some id) : id < size := by
  rcases (Option.orElse_eq_some _ _ _).mp hid with hown | ⟨-, hfound⟩
  · exact hprec id hown
  · exact hrhs id (List.mem_of_find?_eq_some hfound)

namespace Reportable

/-- The analysis guarantees what the report relies on. -/
theorem analyze (hg : Fresh g) (hprec : ∀ r ∈ g.rules, ∀ id, r.precSymbol = some id →
    id < g.table.size) (hsize : 0 < g.table.size) : Reportable g.analyze g.table.byName where
  sorted := hg.sorted_analyze hsize
  symbols := by
    rw [hg.size_analyze]
    exact fun id hid => SymbolTable.mem_byName.mp hid
  inRange := by
    unfold Grammar.InRange
    rw [hg.size_analyze, Grammar.rules_analyze, List.forall_mem_map]
    exact hg.inRange
  prec := by
    rw [hg.size_analyze, Grammar.rules_analyze, List.forall_mem_map]
    exact fun r hr id hid => rulePrecedence_lt (hg.inRange r hr).2 (hprec r hr) hid
  firstSet := by
    -- only first-sets of nonterminals have entries
    intro s x' hx' i hi
    obtain ⟨x, hx⟩ := SymbolTable.exists_get?_of_lt
      (hg.size_analyze ▸ SymbolTable.lt_size_of_get? hx')
    obtain ⟨y, hy, -, hkind, -⟩ := hg.exists_get?_analyze hx
    rw [hx'] at hy
    cases hy
    cases hterminal : x.isTerminal with
    | true =>
      rw [hg.firstSet_analyze_of_terminal hx' (hkind.trans hterminal)] at hi
      cases hi
    | false =>
      -- an entry is the position of a terminal
      obtain ⟨c, -, -, -, -, hc, -⟩ := (hg.mem_firstSet_iff hx hterminal hx' i).mp hi
      exact (List.getElem?_eq_some_iff.mp hc).1

/-! ## The report -/

/-- The symbols of a view are found, since they exist. -/
theorem symbols_eq_ok {t : SymbolTable} (hview : ∀ id ∈ view, id < t.size) :
    view.mapM (symbol t) = .ok (view.filterMap t.get?) := by
  induction view with
  | nil => rfl
  | cons id view ih =>
    rw [List.forall_mem_cons] at hview
    obtain ⟨x, hx⟩ := SymbolTable.exists_get?_of_lt hview.1
    rw [List.mapM_cons, symbol_eq_ok hx, ok_bind, ih hview.2, List.filterMap_cons_some hx]
    rfl

/-- The reprint of the grammar is made without a fault other than a wide field. -/
theorem reprintLines_eq (h : Reportable g view) (file : String) :
    reprintLines g file = Report.reprintLines g file := by
  have hrules : g.rules.mapM (displayRule g) = .ok (g.rules.map g.displayRule) :=
    mapM_eq_ok fun r hr => displayRule_eq_ok (h.inRange r hr).1 (h.inRange r hr).2 (h.prec r hr)
  rw [reprintLines, Report.reprintLines, h.sorted, ok_bind, ok_bind, columnLines_eq h.symbols]
  cases Report.columnLines (view.map g.name) with
  | error fault => rfl
  | ok columns => rw [ok_bind, ok_bind, symbols_eq_ok h.symbols, ok_bind, hrules, ok_bind]

/-- Every position in the view is that of a symbol. -/
theorem atIndex_eq_ok (h : Reportable g view) {i : Nat} (hi : i < view.length) :
    g.table.atIndex i = .ok (view.getD i 0) ∧ view.getD i 0 < g.table.size := by
  rw [← List.getElem_eq_getD (h := hi) 0]
  exact ⟨(SymbolTable.atIndex_eq_ok_iff h.sorted i _).mpr (List.getElem?_eq_getElem hi),
    h.symbols _ (List.getElem_mem hi)⟩

/-- The names of a first-set are found. -/
theorem firstSetNames_eq_ok (h : Reportable g view) {id : SymbolId} {x : Symbol}
    (hx : g.table.get? id = some x) :
    ∃ names, firstSetNames g id = .ok names ∧ g.firstSetNames id = .ok names := by
  refine ⟨x.firstSet.toList.map fun i => g.name (view.getD i 0), ?_, ?_⟩
  · rw [firstSetNames, symbol_eq_ok hx, ok_bind]
    apply mapM_eq_ok
    intro i hi
    obtain ⟨hat, hlt⟩ := h.atIndex_eq_ok (h.firstSet id x hx i hi)
    rw [hat, ok_bind, name_eq_ok hlt]
  · rw [Grammar.firstSetNames, hx]
    apply mapM_eq_ok
    intro i hi
    rw [(h.atIndex_eq_ok (h.firstSet id x hx i hi)).1]
    rfl

/-- The line on a first-set is made without a fault. -/
theorem firstSetLine_eq_ok (h : Reportable g view) {id : SymbolId} (hid : id < g.table.size) :
    ∃ line, firstSetLine g id = .ok line ∧ Report.firstSetLine g id = .ok line := by
  obtain ⟨x, hx⟩ := SymbolTable.exists_get?_of_lt hid
  obtain ⟨names, hguarded, hplain⟩ := h.firstSetNames_eq_ok hx
  refine ⟨x.name ++ " => \x7b " ++
    ", ".intercalate (if x.nullable then names ++ ["ε"] else names) ++ " \x7d", ?_, ?_⟩
  · rw [firstSetLine, symbol_eq_ok hx, ok_bind, hguarded]
    rfl
  · rw [Report.firstSetLine, hplain, ok_bind, SymbolTable.isNullable_eq_of_get? hx, Grammar.name,
      SymbolTable.name_eq_of_get? hx]
    rfl

/-- The lines on all first-sets are made without a fault. -/
theorem firstSetLines_eq_ok (h : Reportable g view) :
    ∃ lines, view.mapM (firstSetLine g) = .ok lines ∧ firstSetLines g = .ok lines := by
  rw [firstSetLines, h.sorted, ok_bind]
  exact exists_mapM_eq_ok fun id hid => h.firstSetLine_eq_ok (h.symbols id hid)

/-- The guarded report is the plain one. -/
theorem report_eq (h : Reportable g view) (file : String) (firstSets : Bool) :
    report g file firstSets = text g file firstSets := by
  obtain ⟨lines, hguarded, hplain⟩ := h.firstSetLines_eq_ok
  rw [report, text, Report.lines, h.reprintLines_eq, h.sorted, hplain]
  -- both reports fail at the reprint or not at all
  cases Report.reprintLines g file with
  | error fault => rfl
  | ok reprint =>
    simp only [ok_bind, hguarded]
    split <;> rfl

/-- If all names fit, all lines are written. -/
theorem report_of_narrow (h : Reportable g view)
    (hnarrow : nameWidth (view.map g.name) ≤ fieldLimit) (file : String) (firstSets : Bool) :
    ∃ out, report g file firstSets = .ok out ∧ text g file firstSets = .ok out := by
  obtain ⟨lines, -, hplain⟩ := h.firstSetLines_eq_ok
  obtain ⟨out, hout⟩ : ∃ out, text g file firstSets = .ok out := by
    -- the only refusal is that of a wide field
    rw [text, Report.lines, Report.reprintLines, h.sorted, ok_bind, Report.columnLines,
      if_neg (Nat.not_lt.mpr hnarrow), hplain]
    cases firstSets <;> exact ⟨_, rfl⟩
  exact ⟨out, (h.report_eq file firstSets).trans hout, hout⟩

/-- A name that fits in no field is met in the listing of the symbols. -/
theorem reprintLines_of_wide (h : Reportable g view)
    (hwide : fieldLimit < nameWidth (view.map g.name)) (file : String) :
    Report.reprintLines g file = .error .wideField := by
  rw [Report.reprintLines, h.sorted, ok_bind, Report.columnLines, if_pos hwide]
  rfl

/-- A name that fits in no field stands in the way of the report. -/
theorem report_of_wide (h : Reportable g view)
    (hwide : fieldLimit < nameWidth (view.map g.name)) (file : String) (firstSets : Bool) :
    report g file firstSets = .error .wideField := by
  rw [report, h.reprintLines_eq, h.reprintLines_of_wide hwide]
  rfl

/-- Where a name fits in no field, the titles are written, and the beginning of a row. -/
theorem write_of_wide (h : Reportable g view)
    (hwide : fieldLimit < nameWidth (view.map g.name)) (file : String) (firstSets : Bool) :
    write g file firstSets = ⟨render (titleLines file) ++ "//", some .wideField⟩ := by
  have htext : text g file firstSets = .error .wideField :=
    (h.report_eq file firstSets).symm.trans (h.report_of_wide hwide file firstSets)
  rw [write, htext, begun, h.sorted, h.reprintLines_of_wide hwide]

end Reportable

/-! ## Names that fit -/

/-- Every name fits in a field. -/
def NamesFit (g : Grammar) : Prop := ∀ n ∈ g.table.names, n.toList.length ≤ fieldLimit

/-- The width of the names is bounded exactly if the least width and all names are. -/
theorem nameWidth_le_iff {names : List String} {limit : Nat} :
    nameWidth names ≤ limit ↔
      minNameWidth ≤ limit ∧ ∀ n ∈ names, n.toList.length ≤ limit := by
  unfold nameWidth
  generalize minNameWidth = width
  -- the width grows name by name, beginning with the least one
  induction names generalizing width with
  | nil => simp
  | cons n names ih => rw [List.foldl_cons, ih, Nat.max_le, List.forall_mem_cons, and_assoc]

/-- The view shows the names of all symbols. -/
theorem mem_names_view_iff (hg : Fresh g) {n : String} :
    n ∈ g.table.byName.map g.analyze.name ↔ n ∈ g.table.names := by
  constructor
  · intro h
    obtain ⟨id, hid, rfl⟩ := List.mem_map.mp h
    obtain ⟨x, hx⟩ := SymbolTable.exists_get?_of_lt (SymbolTable.mem_byName.mp hid)
    rw [hg.name_analyze hx]
    exact List.mem_map_of_mem (List.mem_of_getElem? hx)
  · intro h
    obtain ⟨x, hmem, rfl⟩ := List.mem_map.mp h
    obtain ⟨id, hx⟩ := List.getElem?_of_mem hmem
    rw [← hg.name_analyze hx]
    exact List.mem_map_of_mem (SymbolTable.mem_byName.mpr (SymbolTable.lt_size_of_get? hx))

/-- The names of the view fit in a field exactly if all names of the grammar do. -/
theorem nameWidth_view_le_iff (hg : Fresh g) :
    nameWidth (g.table.byName.map g.analyze.name) ≤ fieldLimit ↔ NamesFit g := by
  rw [nameWidth_le_iff, NamesFit]
  simp only [mem_names_view_iff hg]
  exact and_iff_right (by decide)

end YaccGrammar.Guarded
