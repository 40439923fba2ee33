import Mathlib.Data.List.Nodup
import Mathlib.Data.String.Basic
import YaccGrammar.Proofs.Symbol.Table

/-!
# The sorted view

A table lists its symbols by name. When the names are different, the view lists every symbol once
and in strictly ascending order, and the position that sorting gives to a symbol is the one at which
the view has it.

## Main statements

- `byName_perm`, `pairwise_byName`: the view is a permutation in strictly ascending order.
- `atIndex_eq_ok_iff`: a symbol is found at its position and nowhere else.
-/

namespace YaccGrammar.SymbolTable

/-! ## Names -/

/-- The names of all symbols, in order of first insertion. -/
def names (t : SymbolTable) : List String := t.symbols.map Symbol.name

/-- There are as many names as symbols. -/
@[simp] theorem length_names (t : SymbolTable) : t.names.length = t.size := by
  simp [names, size]

/-- The name at a number is that of the symbol. -/
theorem names_getElem? (t : SymbolTable) (id : SymbolId) :
    t.names[id]? = (t.get? id).map Symbol.name := by
  simp [names, get?]

/-- A symbol that is found tells its name. -/
theorem name_eq_of_get? {t : SymbolTable} {id : SymbolId} {x : Symbol} (h : t.get? id = some x) :
    t.name id = x.name := by
  simp [name, h]

/-- A number is printed as the name that stands there. -/
theorem name_eq_of_names {t : SymbolTable} {id : SymbolId} {n : String}
    (h : t.names[id]? = some n) : t.name id = n := by
  rw [names_getElem?] at h
  rw [name, h]
  rfl

/-- What is printed for a number depends on the names. -/
theorem name_congr {t t' : SymbolTable} (h : t'.names = t.names) : t'.name = t.name := by
  have hname (t : SymbolTable) (id : SymbolId) : t.name id = t.names[id]?.getD "" := by
    rw [names_getElem?, name]
  funext id
  rw [hname, hname, h]

/-- Symbols with the same name are the same if names are not repeated. -/
theorem eq_of_name_eq {t : SymbolTable} (hnames : t.names.Nodup) {id id' : SymbolId}
    (h : id < t.size) (h' : id' < t.size) (heq : t.name id = t.name id') : id = id' := by
  obtain ⟨x, hx⟩ := exists_get?_of_lt h
  obtain ⟨y, hy⟩ := exists_get?_of_lt h'
  rw [name_eq_of_get? hx, name_eq_of_get? hy] at heq
  have hnames? : t.names[id]? = t.names[id']? := by
    rw [names_getElem?, names_getElem?, hx, hy, Option.map_some, Option.map_some, heq]
  exact (List.getElem?_inj (by simpa using h) hnames).mp hnames?

/-! ## The view -/

/-- The view depends on the names. -/
theorem byName_congr {t t' : SymbolTable} (h : t.names = t'.names) : t.byName = t'.byName := by
  rw [names, names] at h
  rw [byName, byName, h]

/-- The view lists every symbol once. -/
theorem byName_perm (t : SymbolTable) : t.byName.Perm (List.range t.size) := by
  have h := (sortBy_perm (fun a b => decide (a.1 ≤ b.1)) t.names.zipIdx).map Prod.snd
  rw [List.zipIdx_map_snd, length_names, ← List.range_eq_range'] at h
  exact h

/-- The view lists the symbols and nothing else. -/
theorem mem_byName {t : SymbolTable} {id : SymbolId} : id ∈ t.byName ↔ id < t.size := by
  rw [t.byName_perm.mem_iff, List.mem_range]

/-- The view repeats no symbol. -/
theorem nodup_byName (t : SymbolTable) : t.byName.Nodup :=
  t.byName_perm.nodup_iff.mpr List.nodup_range

/-- The names in the view ascend. -/
theorem pairwise_le_byName (t : SymbolTable) :
    t.byName.Pairwise fun a b => t.name a ≤ t.name b := by
  let le : String × SymbolId → String × SymbolId → Bool := fun a b => decide (a.1 ≤ b.1)
  have hsorted : (sortBy le t.names.zipIdx).Pairwise (le · · = true) := by
    -- the order of names is transitive and total, which is what sorting needs
    apply pairwise_sortBy
    · intro a b c hab hbc
      exact decide_eq_true (le_trans (of_decide_eq_true hab) (of_decide_eq_true hbc))
    · intro a b
      rcases le_total a.1 b.1 with h | h
      · exact Or.inl (decide_eq_true h)
      · exact Or.inr (decide_eq_true h)
  -- each pair that is sorted carries the name of its symbol
  have hname : ∀ p ∈ sortBy le t.names.zipIdx, t.name p.2 = p.1 := by
    intro p hp
    have hp := (sortBy_perm le _).mem_iff.mp hp
    exact name_eq_of_names (List.mem_zipIdx_iff_getElem?.mp hp)
  show ((sortBy le t.names.zipIdx).map Prod.snd).Pairwise fun a b => t.name a ≤ t.name b
  rw [List.pairwise_map]
  refine hsorted.imp_of_mem ?_
  intro p q hp hq hpq
  rw [hname p hp, hname q hq]
  exact of_decide_eq_true hpq

/-- Where no name is repeated, the names in the view ascend strictly. -/
theorem pairwise_byName {t : SymbolTable} (hnames : t.names.Nodup) :
    t.byName.Pairwise fun a b => t.name a < t.name b := by
  refine (t.pairwise_le_byName.and t.nodup_byName).imp_of_mem ?_
  rintro a b ha hb ⟨hle, hne⟩
  -- equal names would be those of one symbol, which stands in the view only once
  refine lt_of_le_of_ne hle fun heq => hne ?_
  exact eq_of_name_eq hnames (mem_byName.mp ha) (mem_byName.mp hb) heq

/-! ## Sorting -/

/-- A sort writes into every symbol its position in the view, and nothing else. -/
theorem get?_sort {t : SymbolTable} (hstale : t.stale = true) (id : SymbolId) :
    t.sort.get? id = (t.get? id).map fun x => { x with index := t.byName.idxOf id } := by
  simp [sort, hstale, get?]

/-- Behind a sort the view can be read. -/
theorem sorted_sort {t : SymbolTable} (hstale : t.stale = true) : t.sort.sorted = .ok t.byName := by
  simp [sort, hstale, sorted]

/-- A symbol is found at its position and nowhere else. -/
theorem atIndex_eq_ok_iff {t : SymbolTable} {view : List SymbolId} (hview : t.sorted = .ok view)
    (i : Nat) (id : SymbolId) : t.atIndex i = .ok id ↔ view[i]? = some id := by
  cases hi : view[i]? with
  | none => simp [atIndex, hview, hi, bind, Except.bind]
  | some id' => simp [atIndex, hview, hi, bind, Except.bind]

/-- A symbol stands in the view at its position and nowhere else. -/
theorem getElem?_byName_iff {t : SymbolTable} {i : Nat} {id : SymbolId} :
    t.byName[i]? = some id ↔ id < t.size ∧ t.byName.idxOf id = i := by
  constructor
  · intro h
    obtain ⟨hi, rfl⟩ := List.getElem?_eq_some_iff.mp h
    exact ⟨mem_byName.mp (List.getElem_mem hi), t.nodup_byName.idxOf_getElem i hi⟩
  · -- every symbol is listed, so its position is one of the view
    rintro ⟨hid, rfl⟩
    have hi := List.idxOf_lt_length_iff.mpr (mem_byName.mpr hid)
    exact List.getElem?_eq_some_iff.mpr ⟨hi, List.getElem_idxOf hi⟩

/-- The name of the symbol at a position. -/
def nameAt (t : SymbolTable) (i : Nat) : String := (t.byName[i]?.map t.name).getD ""

/-- The name at a position is that of the symbol there. -/
theorem nameAt_eq {t : SymbolTable} {i : Nat} {id : SymbolId} (h : t.byName[i]? = some id) :
    t.nameAt i = t.name id := by
  rw [nameAt, h]
  rfl

end YaccGrammar.SymbolTable
