import YaccGrammar.Proofs.Guarded.Grammar

/-!
# Consistent tables

A table tells its symbols apart by their names, counts those of each kind, and where its view can be
read, the view lists the symbols by name and each symbol knows its position there. An insertion adds
to one count and makes the view stale; a change of kind moves one symbol between the counts and
touches no name; a sort renews view and positions together.

## Main statements

- `Consistent.insert`, `Consistent.setKind`, `Consistent.sort`: a table stays consistent.
- `Consistent.setKind_eq_ok`: a count that is lowered is not zero.
-/

namespace YaccGrammar.SymbolTable

open Fault

/-! ## What the operations change -/

/-- The kinds of all symbols, in order of first insertion. -/
def kinds (t : SymbolTable) : List SymbolKind := t.symbols.map Symbol.kind

/-- There are as many kinds as symbols. -/
@[simp] theorem length_kinds (t : SymbolTable) : t.kinds.length = t.size := by
  simp [kinds, size]

/-- The kind at a number is that of the symbol. -/
theorem kinds_getElem? (t : SymbolTable) (id : SymbolId) :
    t.kinds[id]? = (t.get? id).map Symbol.kind := by
  simp [kinds, get?]

section Changes

variable {t : SymbolTable} {id : SymbolId} {n : String} {x : Symbol} {kind : SymbolKind}

/-- A name that is known is not added again. -/
theorem insert_of_find? (h : t.find? n = some id) : t.insert n = (id, t) := by
  rw [insert, h]

/-- What an insertion of a new name makes of a table. -/
def added (t : SymbolTable) (n : String) : SymbolTable :=
  let symbol := Symbol.ofName n
  { t with
    symbols := t.symbols ++ [symbol]
    stale := true
    terminals := if symbol.isTerminal then t.terminals + 1 else t.terminals
    nonterminals := if symbol.isTerminal then t.nonterminals else t.nonterminals + 1 }

/-- A new name is added, with the number of symbols as its own. -/
theorem insert_of_notMem (h : n ∉ t.names) : t.insert n = (t.size, t.added n) := by
  rw [insert, find?_eq_none_iff.mpr h]
  rfl

/-- The new name comes last. -/
theorem names_added (t : SymbolTable) (n : String) : (t.added n).names = t.names ++ [n] := by
  simp [added, names, Symbol.ofName]

/-- The kind of the new symbol comes last, as its name tells it. -/
theorem kinds_added (t : SymbolTable) (n : String) :
    (t.added n).kinds = t.kinds ++ [(Symbol.ofName n).kind] := by
  simp [added, kinds]

/-- What is written where it stands already changes nothing. -/
theorem set_eq_self {α : Type} {l : List α} {i : Nat} {a : α} (h : l[i]? = some a) :
    l.set i a = l := by
  obtain ⟨hi, rfl⟩ := List.getElem?_eq_some_iff.mp h
  exact List.set_getElem_self hi

/-- A change of kind writes one symbol and nothing else of it. -/
theorem symbols_setKind (hx : t.get? id = some x) (kind : SymbolKind) :
    (t.setKind id kind).symbols = t.symbols.set id { x with kind } := by
  have hmodify : (t.modify id fun s => { s with kind }).symbols =
      t.symbols.set id { x with kind } := by
    rw [get?] at hx
    simp [modify, List.modify_eq_set_getElem?, hx]
  unfold setKind
  simp only [hx]
  -- the kind that is there already is not written, and writing it would change nothing
  split
  next h =>
    subst h
    exact (set_eq_self hx).symm
  next => cases kind <;> exact hmodify

/-- A change of kind changes one of the kinds. -/
theorem kinds_setKind (hx : t.get? id = some x) (kind : SymbolKind) :
    (t.setKind id kind).kinds = t.kinds.set id kind := by
  simp [kinds, symbols_setKind hx, List.map_set]

/-- A change of kind leaves the view as it is. -/
theorem stale_setKind (t : SymbolTable) (id : SymbolId) (kind : SymbolKind) :
    (t.setKind id kind).stale = t.stale ∧ (t.setKind id kind).view = t.view := by
  unfold setKind
  split
  · exact ⟨rfl, rfl⟩
  split
  · exact ⟨rfl, rfl⟩
  · cases kind <;> exact ⟨rfl, rfl⟩

/-- Where the view is fresh a sort changes nothing. -/
theorem sort_of_fresh (h : t.stale = false) : t.sort = t := by
  simp [sort, h]

/-- A sort leaves the names in their order of insertion. -/
theorem names_sort (t : SymbolTable) : t.sort.names = t.names := by
  cases h : t.stale with
  | false => rw [sort_of_fresh h]
  | true =>
    apply List.ext_getElem?
    intro id
    simp [names_getElem?, get?_sort h, Function.comp_def]

/-- A sort changes no kind. -/
theorem kinds_sort (t : SymbolTable) : t.sort.kinds = t.kinds := by
  cases h : t.stale with
  | false => rw [sort_of_fresh h]
  | true =>
    apply List.ext_getElem?
    intro id
    simp [kinds_getElem?, get?_sort h, Function.comp_def]

/-- Behind a sort the view is fresh. -/
@[simp] theorem stale_sort (t : SymbolTable) : t.sort.stale = false := by
  unfold sort
  split <;> simp_all

/-- A sort changes no count. -/
theorem counts_sort (t : SymbolTable) :
    t.sort.terminals = t.terminals ∧ t.sort.nonterminals = t.nonterminals := by
  unfold sort
  split <;> exact ⟨rfl, rfl⟩

end Changes

/-! ## Consistency -/

/-- Names are told apart, the counts are right, and so is a view that can be read. -/
structure Consistent (t : SymbolTable) : Prop where
  nodup : t.names.Nodup
  terminals : t.terminals = t.kinds.count .terminal
  nonterminals : t.nonterminals = t.kinds.count .nonterminal
  view : t.stale = false → t.view = t.byName
  index : t.stale = false → ∀ id x, t.get? id = some x → t.byName.idxOf id = x.index

/-- The empty table is consistent. -/
theorem consistent_empty : Consistent {} where
  nodup := List.nodup_nil
  terminals := rfl
  nonterminals := rfl
  view _ := rfl
  index _ id x hx := by simp [get?] at hx

/-- A symbol is a terminal or a nonterminal, and not both. -/
theorem count_kinds (ks : List SymbolKind) :
    ks.count .terminal + ks.count .nonterminal = ks.length := by
  induction ks with
  | nil => rfl
  | cons k ks ih =>
    cases k <;> simp <;> omega

namespace Consistent

variable {t : SymbolTable} {id : SymbolId} {n : String} {x : Symbol}

/-- A name is found at its number. -/
theorem find?_eq_some_iff (ht : t.Consistent) : t.find? n = some id ↔ t.names[id]? = some n := by
  constructor
  · exact names_of_find?
  · intro hid
    cases h : t.find? n with
    | none => exact absurd (List.mem_of_getElem? hid) (find?_eq_none_iff.mp h)
    -- what is found has the name as well, and names are told apart
    | some id' =>
      have hid' := names_of_find? h
      have hlt := (List.getElem?_eq_some_iff.mp hid).1
      rw [(List.getElem?_inj hlt ht.nodup).mp (hid.trans hid'.symm)]

/-- The two counts make up the size. -/
theorem counts (ht : t.Consistent) : t.terminals + t.nonterminals = t.size := by
  rw [ht.terminals, ht.nonterminals, count_kinds, length_kinds]

/-! ### Insertions -/

/-- A table stays consistent when a new name is added. -/
theorem added (ht : t.Consistent) (hn : n ∉ t.names) : (t.added n).Consistent where
  nodup := by
    rw [names_added, List.nodup_append]
    refine ⟨ht.nodup, List.nodup_singleton n, ?_⟩
    rintro m hm _ hn' rfl
    exact hn (List.mem_singleton.mp hn' ▸ hm)
  terminals := by
    rw [kinds_added, List.count_append, ← ht.terminals]
    cases h : (Symbol.ofName n).kind <;> simp [SymbolTable.added, Symbol.isTerminal, h]
  nonterminals := by
    rw [kinds_added, List.count_append, ← ht.nonterminals]
    cases h : (Symbol.ofName n).kind <;> simp [SymbolTable.added, Symbol.isTerminal, h]
  view := by simp [SymbolTable.added]
  index := by simp [SymbolTable.added]

/-- A table stays consistent under insertions, be the name new or known. -/
theorem insert (ht : t.Consistent) (n : String) : (t.insert n).2.Consistent := by
  cases h : t.find? n with
  | some id =>
    rw [insert_of_find? h]
    exact ht
  | none =>
    have hn := find?_eq_none_iff.mp h
    rw [insert_of_notMem hn]
    exact ht.added hn

/-! ### Changes of kind -/

/-- The symbol that changes its kind is counted. -/
theorem count_pos (ht : t.Consistent) (hx : t.get? id = some x) :
    match x.kind with
    | .terminal => 0 < t.terminals
    | .nonterminal => 0 < t.nonterminals := by
  have hkind : x.kind ∈ t.kinds := by
    apply List.mem_of_getElem?
    rw [kinds_getElem?, hx, Option.map_some]
  cases h : x.kind with
  | terminal => simpa [ht.terminals, List.count_pos_iff] using h ▸ hkind
  | nonterminal => simpa [ht.nonterminals, List.count_pos_iff] using h ▸ hkind

/-- A change of kind is not refused: the count that it lowers is not zero. -/
theorem setKind_eq_ok (ht : t.Consistent) (hx : t.get? id = some x) (kind : SymbolKind) :
    Guarded.setKind t id kind = .ok (t.setKind id kind) := by
  have hpos := ht.count_pos hx
  simp only [Guarded.setKind, Guarded.symbol_eq_ok hx, ok_bind]
  rw [Guarded.modifySymbol_eq_ok (lt_size_of_get? hx)]
  simp only [setKind, hx]
  split
  next => rfl
  next hkind =>
    -- the kind that is left is the other one
    cases kind <;> cases h : x.kind <;> simp only [h, not_true_eq_false] at hkind hpos ⊢
    · simp [Guarded.lower_of_pos hpos, modify]
    · simp [Guarded.lower_of_pos hpos, modify]

/-- A table stays consistent under changes of kind. -/
theorem setKind (ht : t.Consistent) (hx : t.get? id = some x) (kind : SymbolKind) :
    (t.setKind id kind).Consistent := by
  -- nothing happens if the symbol is of that kind already
  by_cases hkind : x.kind = kind
  · rw [setKind_eq_self hx hkind]
    exact ht
  · obtain ⟨hstale, hview⟩ := stale_setKind t id kind
    have hnames := t.names_setKind id kind
    have hid : id < t.kinds.length := by simpa using lt_size_of_get? hx
    have hold : t.kinds[id] = x.kind := by
      simpa [hx, List.getElem?_eq_getElem hid] using t.kinds_getElem? id
    refine ⟨hnames ▸ ht.nodup, ?_, ?_, ?_, ?_⟩
    · -- the symbol leaves one count and enters the other one
      rw [kinds_setKind hx, List.count_set hid, hold, ← ht.terminals]
      cases kind <;> cases h : x.kind <;> simp_all [SymbolTable.setKind, modify]
    · rw [kinds_setKind hx, List.count_set hid, hold, ← ht.nonterminals]
      cases kind <;> cases h : x.kind <;> simp_all [SymbolTable.setKind, modify]
    · intro hfresh
      -- the view depends on the names, which stay
      rw [hview, byName_congr hnames]
      exact ht.view (hstale ▸ hfresh)
    · intro hfresh s z hz
      obtain ⟨y, hy, hyz⟩ := get?_setKind hz
      rw [byName_congr hnames, hyz]
      exact ht.index (hstale ▸ hfresh) s y hy

/-! ### Sorts -/

/-- A table stays consistent under sorts. -/
theorem sort (ht : t.Consistent) : t.sort.Consistent := by
  cases h : t.stale with
  | false =>
    rw [sort_of_fresh h]
    exact ht
  | true =>
    -- names, the two counts, the view and the positions in it
    refine ⟨?_, ?_, ?_, ?_, ?_⟩
    · rw [names_sort]
      exact ht.nodup
    · rw [kinds_sort, (counts_sort t).1]
      exact ht.terminals
    · rw [kinds_sort, (counts_sort t).2]
      exact ht.nonterminals
    · intro _
      rw [byName_congr t.names_sort]
      simp [SymbolTable.sort, h]
    · intro _ id x hx
      rw [byName_congr t.names_sort]
      rw [get?_sort h] at hx
      obtain ⟨y, -, rfl⟩ := Option.map_eq_some_iff.mp hx
      rfl

end Consistent

end YaccGrammar.SymbolTable
