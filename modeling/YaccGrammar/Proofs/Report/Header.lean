import YaccGrammar.Proofs.Grammar.Intact
import YaccGrammar.Proofs.Guarded.Pipeline
import YaccGrammar.Proofs.Report.Listing

/-!
# The header of the report

In front of the rules the report has a header of comments: two titles, the listing of the symbols,
and below a third title what was declared of them, each on a line of its own. Names and tags are
printed as they are. Literals and tags may run over several lines of the grammar file, and then so
does what is printed of them, and only its first line is marked as a comment.

## Main statements

- `linesOf_render`, `linesOf_render_eq_iff`: the lines of a text that is printed line by line.
- `Header.linesOf_eq_iff`: when every part of the header stays on its line.
- `header_of_parse`: the header of every grammar that is read.
-/

namespace YaccGrammar

/-- Neither the name nor the tag runs over several lines. -/
structure Symbol.Unbroken (x : Symbol) : Prop where
  name : '\n' ∉ x.name.toList
  tag : ∀ tag, x.tag = some tag → '\n' ∉ tag.toList

namespace SymbolTable

variable {t t' : SymbolTable}

/-- No name and no tag runs over several lines. -/
def Unbroken (t : SymbolTable) : Prop := ∀ x ∈ t.symbols, x.Unbroken

/-- No name and no tag is broken, told by numbers. -/
theorem unbroken_iff : t.Unbroken ↔ ∀ id x, t.get? id = some x → x.Unbroken := by
  simp only [Unbroken, List.mem_iff_getElem?, get?, forall_exists_index]
  exact forall_comm

/-- The analysis changes neither names nor tags. -/
theorem Enriched.unbroken_iff (h : t.Enriched t') : t'.Unbroken ↔ t.Unbroken := by
  have hsame {x x' : Symbol} (hxx' : x.Enriched x') : x'.Unbroken ↔ x.Unbroken := by
    constructor
    · intro hx'
      exact ⟨hxx'.name ▸ hx'.name, hxx'.tag ▸ hx'.tag⟩
    · intro hx
      exact ⟨hxx'.name.symm ▸ hx.name, hxx'.tag.symm ▸ hx.tag⟩
  rw [SymbolTable.unbroken_iff, SymbolTable.unbroken_iff]
  constructor
  · intro ht' id x hx
    obtain ⟨x', hx', hxx'⟩ := h.symbol id x hx
    exact (hsame hxx').mp (ht' id x' hx')
  · intro ht id x' hx'
    obtain ⟨x, hx, hxx'⟩ := h.exists_get? hx'
    exact (hsame hxx').mpr (ht id x hx)

/-- What is printed for a number is not broken either, be there a symbol or not. -/
theorem Unbroken.name (ht : t.Unbroken) (id : SymbolId) : '\n' ∉ (t.name id).toList := by
  cases hx : t.get? id with
  | none => simp [SymbolTable.name, hx]
  | some x =>
    rw [name_eq_of_get? hx]
    exact (SymbolTable.unbroken_iff.mp ht id x hx).name

/-- The view lists all symbols. -/
theorem filterMap_get?_byName_perm (t t' : SymbolTable) (hsize : t'.size = t.size) :
    (t.byName.filterMap t'.get?).Perm t'.symbols := by
  refine (t.byName_perm.filterMap t'.get?).trans (.of_eq ?_)
  rw [← hsize]
  exact (Report.filterMap_getElem?_range t'.symbols t'.size).trans List.take_length

end SymbolTable

namespace Report

/-! ## Lines -/

section Lines

variable {lines : List String}

/-- The lines of a text in which each line ends with a line break. -/
def linesOf (text : String) : List (List Char) := (text.toList.splitOn '\n').dropLast

/-- A printed text ends with a line break, so nothing stands behind the last one. -/
theorem splitOn_render (lines : List String) :
    (render lines).toList.splitOn '\n' =
      (lines.flatMap fun l => l.toList.splitOn '\n') ++ [[]] := by
  induction lines with
  | nil => rfl
  | cons l lines ih =>
    have htext : (render (l :: lines)).toList = l.toList ++ '\n' :: (render lines).toList := by
      simp [render, String.toList_append]
    rw [htext, List.splitOn_append_cons_self, ih, List.flatMap_cons, List.append_assoc]

/-- What is printed as one line may be several. -/
theorem linesOf_render (lines : List String) :
    linesOf (render lines) = lines.flatMap fun l => l.toList.splitOn '\n' := by
  rw [linesOf, splitOn_render, List.dropLast_concat]

/-- There is no line break in a piece between line breaks. -/
theorem not_mem_of_mem_splitOn {l piece : List Char} (h : piece ∈ l.splitOn '\n') :
    '\n' ∉ piece := by
  induction l generalizing piece with
  | nil =>
    rw [List.splitOn_nil, List.mem_singleton] at h
    rw [h]
    exact List.not_mem_nil
  | cons c l ih =>
    rw [List.splitOn_cons_eq_if_modifyHead] at h
    -- at a line break a new piece begins; any other character joins the first piece
    split at h
    · rcases List.mem_cons.mp h with rfl | h
      · exact List.not_mem_nil
      · exact ih h
    next hc =>
    obtain ⟨first, others, hpieces⟩ := List.exists_cons_of_ne_nil (List.splitOn_ne_nil '\n' l)
    rw [hpieces] at h ih
    rcases List.mem_cons.mp h with rfl | h
    · rw [List.mem_cons, not_or]
      exact ⟨fun heq => hc (beq_iff_eq.mpr heq.symm), ih List.mem_cons_self⟩
    · exact ih (List.mem_cons_of_mem _ h)

/-- What is printed are the lines that it was made of, if there are no line breaks in them. -/
theorem linesOf_render_eq_iff :
    linesOf (render lines) = lines.map String.toList ↔ ∀ l ∈ lines, '\n' ∉ l.toList := by
  rw [linesOf_render]
  constructor
  · intro h l hl
    -- the line itself is one of the pieces, so it has no line break
    have hmem : l.toList ∈ lines.flatMap fun l => l.toList.splitOn '\n' :=
      h ▸ List.mem_map_of_mem hl
    obtain ⟨l', -, hpiece⟩ := List.mem_flatMap.mp hmem
    exact not_mem_of_mem_splitOn hpiece
  · intro h
    induction lines with
    | nil => rfl
    | cons l lines ih =>
      obtain ⟨hl, hlines⟩ := List.forall_mem_cons.mp h
      rw [List.flatMap_cons, List.splitOn_eq_singleton hl, ih hlines]
      rfl

end Lines

/-! ## Line breaks -/

section Breaks

variable {cell : String × Nat} {width columns : Nat} {names : List String}
  {rows : List (List (String × Nat))} {lines : List String}

/-- There is no line break in a number. -/
theorem not_mem_toDigits (n : Nat) : '\n' ∉ Nat.toDigits 10 n := by
  intro h
  have hdigit := Nat.isDigit_of_mem_toDigits (by decide) (by decide) h
  revert hdigit
  decide

/-- A cell is broken where its name is. -/
theorem mem_wholeCell_iff : '\n' ∈ (wholeCell width cell).toList ↔ '\n' ∈ cell.1.toList := by
  simp [wholeCell, padLeft, String.toList_append, not_mem_toDigits]

/-- A row is broken where a name is. -/
theorem Listing.unbroken_iff (h : Listing names width columns rows lines) :
    (∀ line ∈ lines, '\n' ∉ line.toList) ↔ ∀ n ∈ names, '\n' ∉ n.toList := by
  -- every name has a cell, and no cell has another name
  have hcell (n : String) : n ∈ names ↔ ∃ cells ∈ rows, ∃ cell ∈ cells, cell.1 = n := by
    have hindexed : n ∈ names ↔ n ∈ names.zipIdx.map Prod.fst := by rw [List.zipIdx_map_fst]
    rw [hindexed, ← (h.once.map Prod.fst).mem_iff]
    simp only [List.mem_map, List.mem_flatten]
    constructor
    · rintro ⟨cell, ⟨cells, hcells, hcell⟩, hname⟩
      exact ⟨cells, hcells, cell, hcell, hname⟩
    · rintro ⟨cells, hcells, cell, hcell, hname⟩
      exact ⟨cell, ⟨cells, hcells, hcell⟩, hname⟩
  have hrow (cells : List (String × Nat)) :
      '\n' ∉ ("//" ++ String.join (cells.map (wholeCell width))).toList ↔
        ∀ cell ∈ cells, '\n' ∉ cell.1.toList := by
    simp [String.toList_append, mem_wholeCell_iff]
  rw [h.text, List.forall_mem_map]
  simp only [hrow, hcell]
  constructor
  · rintro hall n ⟨cells, hcells, cell, hcell, rfl⟩
    exact hall cells hcells cell hcell
  · intro hall cells hcells cell hcell
    exact hall cell.1 ⟨cells, hcells, cell, hcell, rfl⟩

/-- A declaration is broken where the name or the tag is. -/
theorem not_mem_declarationLine_iff (x : Symbol) :
    '\n' ∉ (declarationLine x).toList ↔ x.Unbroken := by
  have hunbroken : x.Unbroken ↔
      '\n' ∉ x.name.toList ∧ ∀ tag, x.tag = some tag → '\n' ∉ tag.toList :=
    ⟨fun h => ⟨h.name, h.tag⟩, fun h => ⟨h.1, h.2⟩⟩
  rw [hunbroken]
  unfold declarationLine
  lift_lets
  intro tag precedence
  -- keyword and number of a precedence have no line breaks
  have hprecedence : '\n' ∉ precedence.toList := by
    dsimp only [precedence]
    split
    · next keyword number hkeyword _ =>
      have hword : '\n' ∉ keyword.toList := by
        revert hkeyword
        cases x.assoc with
        | unknown => nofun
        | left | right | nonassoc =>
          rintro ⟨⟩
          decide
      simp [String.toList_append, not_mem_toDigits, hword]
    · exact List.not_mem_nil
  clear_value precedence
  dsimp only [tag]
  cases htag : x.tag with
  | none => simp [String.toList_append, hprecedence]
  | some tag => simp [String.toList_append, hprecedence]

/-- A rule is printed on one line if the names are. -/
theorem not_mem_displayRule {g : Grammar} (h : ∀ id, '\n' ∉ (g.name id).toList) (r : Rule) :
    '\n' ∉ (g.displayRule r).toList := by
  unfold Grammar.displayRule
  cases r.precSymbol <;> simp [String.toList_append, h]

end Breaks

/-! ## The header -/

/-- What is printed of the declarations of symbols: nothing, or a title and one line for each symbol
that has a declaration. -/
inductive Declared (symbols : List Symbol) : List String → Prop where
  | nothing (h : ∀ x ∈ symbols, isDeclared x = false) : Declared symbols []
  | titled (h : ∃ x ∈ symbols, isDeclared x = true) :
      Declared symbols
        ("// Declarations:" :: (symbols.filter isDeclared).map declarationLine)

/-- What is printed in front of the rules. -/
structure Header (symbols : List Symbol) (path : String) (cells : List (List (String × Nat)))
    (rows declarations header : List String) : Prop where
  parts : header =
    ["// Reprint of input file \"" ++ path ++ "\".", "// Symbols:"] ++ rows ++ declarations
  listing : ∃ width columns, Listing (symbols.map Symbol.name) width columns cells rows
  declared : Declared symbols declarations

section Header

variable {symbols : List Symbol} {path : String} {cells : List (List (String × Nat))}
  {rows declarations header : List String}

/-- What is printed of the declarations has the right form. -/
theorem declared_declarationLines (symbols : List Symbol) :
    Declared symbols (declarationLines symbols) := by
  unfold declarationLines
  dsimp only
  split
  · next h =>
    rw [List.isEmpty_iff, List.filter_eq_nil_iff] at h
    exact .nothing fun x hx => Bool.not_eq_true _ ▸ h x hx
  · next h =>
    rw [List.isEmpty_iff, List.filter_eq_nil_iff] at h
    push Not at h
    exact .titled h

/-- The declarations are broken where a declared symbol is. -/
theorem Declared.unbroken_iff (h : Declared symbols declarations) :
    (∀ line ∈ declarations, '\n' ∉ line.toList) ↔
      ∀ x ∈ symbols, isDeclared x = true → x.Unbroken := by
  cases h with
  | nothing h => simp +contextual [h]
  | titled h =>
    have htitle : '\n' ∉ "// Declarations:".toList := by decide
    simp only [List.forall_mem_cons, List.forall_mem_map, not_mem_declarationLine_iff,
      List.mem_filter, and_imp]
    exact and_iff_right htitle

/-- Every part of the header begins as a comment. -/
theorem Header.comment (h : Header symbols path cells rows declarations header) :
    ∀ line ∈ header, "//".toList <+: line.toList := by
  have hmark {mark : String} (hmark : "//".toList <+: mark.toList) (text : String) :
      "//".toList <+: (mark ++ text).toList := by
    rw [String.toList_append]
    exact hmark.trans (List.prefix_append _ _)
  obtain ⟨width, columns, hlisting⟩ := h.listing
  rw [h.parts, hlisting.text]
  simp only [List.forall_mem_append, List.forall_mem_cons, List.forall_mem_map]
  -- the titles, the rows of the listing, and below them the declarations
  refine ⟨⟨⟨hmark (hmark (by decide) _) _, by decide, nofun⟩, fun _ _ => hmark (by decide) _⟩, ?_⟩
  cases h.declared with
  | nothing => nofun
  | titled =>
    simp only [List.forall_mem_cons, List.forall_mem_map]
    exact ⟨by decide, fun _ _ => hmark (hmark (hmark (by decide) _) _) _⟩

/-- Every part of the header stays on its line if no name and no tag runs over several lines. -/
theorem Header.linesOf_eq_iff (h : Header symbols path cells rows declarations header)
    (hpath : '\n' ∉ path.toList) :
    linesOf (render header) = header.map String.toList ↔ ∀ x ∈ symbols, x.Unbroken := by
  obtain ⟨width, columns, hlisting⟩ := h.listing
  have htitles : ∀ line ∈ ["// Reprint of input file \"" ++ path ++ "\".", "// Symbols:"],
      '\n' ∉ line.toList := by
    simp [String.toList_append, hpath]
  rw [linesOf_render_eq_iff, h.parts, List.forall_mem_append, List.forall_mem_append,
    hlisting.unbroken_iff, h.declared.unbroken_iff, List.forall_mem_map]
  constructor
  · rintro ⟨⟨-, hnames⟩, hdeclared⟩ x hx
    -- a symbol with a tag is among those that are declared
    refine ⟨hnames x hx, fun tag htag => (hdeclared x hx ?_).tag tag htag⟩
    simp [isDeclared, htag]
  · intro hall
    exact ⟨⟨htitles, fun x hx => (hall x hx).name⟩, fun x hx _ => hall x hx⟩

end Header

/-! ## Grammars that are read -/

open Guarded Fault in
/-- The lines of an analysed grammar without its first-sets, if its names fit. -/
theorem exists_header {g : Grammar} {view : List SymbolId} (h : Reportable g view)
    (hnarrow : nameWidth (view.map g.name) ≤ fieldLimit) (path : String) :
    ∃ cells rows declarations header,
      Guarded.reprintLines g path = .ok (header ++ g.rules.map g.displayRule) ∧
      Header (view.filterMap g.table.get?) path cells rows declarations header := by
  obtain ⟨rows, hrows, hlisting⟩ := listing_of_names hnarrow
  -- every number of the view is that of a symbol, so names and symbols go together
  have hnames : (view.filterMap g.table.get?).map Symbol.name = view.map g.name := by
    rw [List.map_filterMap, ← List.filterMap_eq_map]
    refine List.filterMap_congr fun id hid => ?_
    obtain ⟨x, hx⟩ := SymbolTable.exists_get?_of_lt (h.symbols id hid)
    rw [hx, Option.map_some, Function.comp_apply, Grammar.name, SymbolTable.name_eq_of_get? hx]
  refine ⟨_, rows, _, _, ?_, rfl, ⟨_, _, hnames.symm ▸ hlisting⟩, declared_declarationLines _⟩
  rw [h.reprintLines_eq, Report.reprintLines, h.sorted, ok_bind, hrows]
  rfl

open Guarded Fault Reading in
/-- What is printed of a grammar that was read, up to its first-sets. If a name fits in no field,
nothing is. Otherwise there is a header of comments in front of the rules: two titles, a line for
each row of the listing, and a third title with a line for each symbol that has a declaration, if
there is one. Each of them stays on its line if no name and no tag runs over several lines, and only
then; the rules do so as well. -/
theorem header_of_parse {file text path : String} {d : Document}
    (hparse : Reading.parse file text = .ok (.ok d)) (hpath : '\n' ∉ path.toList) :
    (¬ NamesFit d.grammar →
      Guarded.reprintLines d.grammar.analyze path = .error .wideField) ∧
    (NamesFit d.grammar → ∃ symbols cells rows declarations header,
      Guarded.reprintLines d.grammar.analyze path =
        .ok (header ++ d.grammar.analyze.rules.map d.grammar.analyze.displayRule) ∧
      symbols.Perm d.grammar.analyze.table.symbols ∧
      Header symbols path cells rows declarations header ∧
      (∀ line ∈ header, "//".toList <+: line.toList) ∧
      (linesOf (render header) = header.map String.toList ↔ d.grammar.table.Unbroken) ∧
      (d.grammar.table.Unbroken →
        linesOf (render (header ++ d.grammar.analyze.rules.map d.grammar.analyze.displayRule)) =
          header.map String.toList ++
            d.grammar.analyze.rules.map fun r => (d.grammar.analyze.displayRule r).toList)) := by
  obtain ⟨r, hread, houtcome⟩ := exists_readText_of_parse hparse
  have hfresh := fresh_of_outcome hread houtcome
  have hreportable := reportable_of_outcome hread houtcome
  rw [← nameWidth_view_le_iff hfresh]
  constructor
  · intro hwide
    rw [hreportable.reprintLines_eq, Report.reprintLines, hreportable.sorted, ok_bind, columnLines,
      if_pos (Nat.not_le.mp hwide)]
    rfl
  · intro hnarrow
    obtain ⟨cells, rows, declarations, header, hprinted, hheader⟩ :=
      exists_header hreportable hnarrow path
    have hsymbols := d.grammar.table.filterMap_get?_byName_perm _ hfresh.size_analyze
    -- the view lists all symbols, and the analysis keeps their names and tags
    have hunbroken : (∀ x ∈ d.grammar.table.byName.filterMap d.grammar.analyze.table.get?,
        x.Unbroken) ↔ d.grammar.table.Unbroken := by
      rw [← d.grammar.enriched_analyze.unbroken_iff, SymbolTable.Unbroken]
      exact forall_congr' fun x => by rw [hsymbols.mem_iff]
    have hlines := (hheader.linesOf_eq_iff hpath).trans hunbroken
    refine ⟨_, cells, rows, declarations, header, hprinted, hsymbols, hheader, hheader.comment,
      hlines, fun ht => ?_⟩
    have ht' := d.grammar.enriched_analyze.unbroken_iff.mpr ht
    -- in a rule only names could be broken
    have hrules : ∀ line ∈ d.grammar.analyze.rules.map d.grammar.analyze.displayRule,
        '\n' ∉ line.toList :=
      List.forall_mem_map.mpr fun r _ => not_mem_displayRule ht'.name r
    have hall := linesOf_render_eq_iff.mpr
      (List.forall_mem_append.mpr ⟨linesOf_render_eq_iff.mp (hlines.mpr ht), hrules⟩)
    rw [hall, List.map_append, List.map_map]
    rfl

open Guarded in
/-- A tag on one line. -/
theorem header_of_parse_tagged :
    ∃ d header, Reading.parse "g.y" "%\x7b%\x7d%token <num> A%%s:A;" = .ok (.ok d) ∧
      Guarded.reprintLines d.grammar.analyze "g.y" =
        .ok (header ++ d.grammar.analyze.rules.map d.grammar.analyze.displayRule) ∧
      linesOf (render header) = header.map String.toList := by
  obtain ⟨d, hparse, hnames, hsymbols⟩ : ∃ d,
      Reading.parse "g.y" "%\x7b%\x7d%token <num> A%%s:A;" = .ok (.ok d) ∧
        (∀ n ∈ d.grammar.table.names, n.toList.length ≤ fieldLimit) ∧
        ∀ x ∈ d.grammar.table.symbols, '\n' ∉ x.name.toList ∧ ∀ tag ∈ x.tag, '\n' ∉ tag.toList := by
    refine ⟨_, rfl, ?_⟩
    decide +kernel
  have hunbroken : d.grammar.table.Unbroken := fun x hx => ⟨(hsymbols x hx).1, (hsymbols x hx).2⟩
  obtain ⟨_, _, _, _, header, hprinted, -, -, -, hlines, -⟩ :=
    (header_of_parse hparse (by decide : '\n' ∉ "g.y".toList)).2 hnames
  exact ⟨d, header, hparse, hprinted, hlines.mpr hunbroken⟩

open Guarded in
/-- A tag on two lines: the second one is no comment. -/
theorem header_broken_of_tag :
    ∃ d header, Reading.parse "g.y" "%\x7b%\x7d%token <a\nb> A%%s:A;" = .ok (.ok d) ∧
      Guarded.reprintLines d.grammar.analyze "g.y" =
        .ok (header ++ d.grammar.analyze.rules.map d.grammar.analyze.displayRule) ∧
      "b>".toList ∈ linesOf (render header) ∧ ¬ "//".toList <+: "b>".toList := by
  refine ⟨_, ["// Reprint of input file \"g.y\".", "// Symbols:",
    "//   0 A            1 s         ", "// Declarations:", "//   A <a\nb>"], rfl, ?_, ?_, ?_⟩
  · decide +kernel
  · decide
  · decide

end Report

end YaccGrammar
