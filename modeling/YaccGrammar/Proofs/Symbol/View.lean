import Mathlib.Data.List.Sort
import YaccGrammar.Proofs.Symbol.History

/-!
# The view of a table with a history

The view of a consistent table that is not stale lists its symbols in strictly ascending order of
their names. Such a list is known by its members, so the order in which the names were inserted is
not to be seen in it. The positions that the symbols know are those in the view.

## Main statements

- `Consistent.sorted_eq`: when the view can be read, and what it is.
- `map_name_byName_congr`: tables with the same names have them at the same positions.
- `view_calls`: the view is right whenever it can be read.
-/

namespace YaccGrammar.SymbolTable

section View

variable {t t' : SymbolTable} {i : Nat} {id : SymbolId}

/-- The view of a consistent table is refused where it is stale, and right otherwise. -/
theorem Consistent.sorted_eq (ht : t.Consistent) :
    t.sorted = if t.stale then .error .staleView else .ok t.byName := by
  unfold sorted
  cases h : t.stale with
  | false => simp [ht.view h]
  | true => rfl

/-- The view shows just the names of the table. -/
theorem mem_map_name_byName {n : String} : n ∈ t.byName.map t.name ↔ n ∈ t.names := by
  simp only [List.mem_map, mem_byName]
  constructor
  · rintro ⟨id, hid, rfl⟩
    obtain ⟨x, hx⟩ := exists_get?_of_lt hid
    rw [name_eq_of_get? hx]
    exact List.mem_map_of_mem (List.mem_of_getElem? hx)
  · intro hn
    obtain ⟨id, hid, hname⟩ := List.mem_iff_getElem.mp hn
    have hget : t.names[id]? = some n := by rw [List.getElem?_eq_getElem hid, hname]
    exact ⟨id, by simpa using hid, name_eq_of_names hget⟩

/-- Where the names were inserted in another order, the view has them at the same positions. -/
theorem map_name_byName_congr (ht : t.names.Nodup) (ht' : t'.names.Nodup)
    (h : ∀ n, n ∈ t.names ↔ n ∈ t'.names) : t.byName.map t.name = t'.byName.map t'.name := by
  have hsorted : (t.byName.map t.name).Pairwise (· < ·) :=
    List.pairwise_map.mpr (pairwise_byName ht)
  have hsorted' : (t'.byName.map t'.name).Pairwise (· < ·) :=
    List.pairwise_map.mpr (pairwise_byName ht')
  -- strictly ascending lists with the same members are equal
  apply hsorted.eq_of_mem_iff hsorted'
  intro n
  rw [mem_map_name_byName, mem_map_name_byName, h]

/-- At every position in range there is a symbol. -/
theorem atIndex_of_lt (hview : t.sorted = .ok t.byName) (hi : i < t.size) :
    ∃ id, t.atIndex i = .ok id := by
  have hlength : i < t.byName.length := by rwa [t.byName_perm.length_eq, List.length_range]
  exact ⟨t.byName[i], (atIndex_eq_ok_iff hview i _).mpr (List.getElem?_eq_getElem hlength)⟩

/-- At a position out of range there is none. -/
theorem atIndex_of_le (hview : t.sorted = .ok t.byName) (hi : t.size ≤ i) :
    t.atIndex i = .error .outOfRange := by
  have hlength : t.byName.length ≤ i := by rwa [t.byName_perm.length_eq, List.length_range]
  simp [atIndex, hview, List.getElem?_eq_none hlength]

/-- A symbol stands in the view where it knows that it does. -/
theorem Consistent.atIndex_eq_ok_iff (ht : t.Consistent) (hfresh : t.stale = false) :
    t.atIndex i = .ok id ↔ ∃ x, t.get? id = some x ∧ x.index = i := by
  have hview : t.sorted = .ok t.byName := by simp [ht.sorted_eq, hfresh]
  rw [SymbolTable.atIndex_eq_ok_iff hview, getElem?_byName_iff]
  -- the position that a symbol knows is the first one at which it stands
  constructor
  · rintro ⟨hid, rfl⟩
    obtain ⟨x, hx⟩ := exists_get?_of_lt hid
    exact ⟨x, hx, (ht.index hfresh id x hx).symm⟩
  · rintro ⟨x, hx, rfl⟩
    exact ⟨lt_size_of_get? hx, ht.index hfresh id x hx⟩

end View

/-! ## Views and histories -/

/-- The view that a table with a history shows is right. -/
structure RightView (cs : List Call) (t : SymbolTable) (view : List SymbolId) : Prop where
  perm : view.Perm (List.range t.size)
  /-- The names ascend strictly, byte by byte. -/
  ascending : (view.map fun id => Text.bytes (t.name id)).Pairwise (· < ·)
  /-- The same names have the same positions, in whatever order they were inserted. -/
  order (cs' : List Call) (answers' : List Answer) (t' : SymbolTable) (view' : List SymbolId)
    (hcalls : calls {} cs' = .ok (answers', t')) (hview : t'.sorted = .ok view')
    (hnames : ∀ n, .insert n ∈ cs ↔ .insert n ∈ cs') : view.map t.name = view'.map t'.name
  inRange (i : Nat) (h : i < t.size) : ∃ id, t.atIndex i = .ok id
  outOfRange (i : Nat) (h : t.size ≤ i) : t.atIndex i = .error .outOfRange
  atIndex_index (id : SymbolId) (x : Symbol) (h : t.get? id = some x) : t.atIndex x.index = .ok id
  index_atIndex (i : Nat) (id : SymbolId) (h : t.atIndex i = .ok id) :
    ∃ x, t.get? id = some x ∧ x.index = i
  /-- Another sort changes nothing. -/
  sort : Guarded.sort t = .ok t

/-- A table with a history shows the right view where it is fresh. -/
theorem Tracks.rightView {t : SymbolTable} {cs : List Call} {answers : List Answer}
    (h : Tracks cs answers t) (hfresh : t.stale = false) : RightView cs t t.byName := by
  have hview : t.sorted = .ok t.byName := by simp [h.consistent.sorted_eq, hfresh]
  refine
    { perm := t.byName_perm
      ascending := ?_
      order := ?_
      inRange := fun i => atIndex_of_lt hview
      outOfRange := fun i => atIndex_of_le hview
      atIndex_index := fun id x hx => (h.consistent.atIndex_eq_ok_iff hfresh).mpr ⟨x, hx, rfl⟩
      index_atIndex := fun i id => (h.consistent.atIndex_eq_ok_iff hfresh).mp
      sort := ?_ }
  · rw [List.pairwise_map]
    exact (pairwise_byName h.consistent.nodup).imp fun hlt => (Text.lt_iff_bytes_lt _ _).mp hlt
  · intro cs' answers' t' view' hcalls hview' hnames
    rcases tracks_calls cs' with ⟨_, _, hok, -, h'⟩ | ⟨herror, -⟩
    · rw [hok] at hcalls
      cases hcalls
      -- a view that can be read is the list of the symbols by name
      rw [h'.consistent.sorted_eq] at hview'
      split at hview'
      · cases hview'
      · cases hview'
        apply map_name_byName_congr h.consistent.nodup h'.consistent.nodup
        intro n
        rw [h.names, h'.names, mem_firsts, mem_firsts, hnames]
    · rw [herror] at hcalls
      cases hcalls
  · rw [Guarded.sort_eq_ok, sort_of_fresh hfresh]

/-- The sorted view is right whenever it can be read, and it is refused exactly when a new name was
inserted after the last sort. A history is refused only for a number that no symbol has when it is
used. -/
theorem view_calls (cs : List Call) :
    (∃ answers t, calls {} cs = .ok (answers, t) ∧ Valid cs ∧
      (t.sorted = .error .staleView ∧ Unsorted cs ∨
        ∃ view, t.sorted = .ok view ∧ ¬ Unsorted cs ∧ RightView cs t view)) ∨
      calls {} cs = .error .outOfRange ∧ ¬ Valid cs := by
  rcases tracks_calls cs with ⟨answers, t, hok, hvalid, h⟩ | hrefused
  · refine .inl ⟨answers, t, hok, hvalid, ?_⟩
    rw [h.consistent.sorted_eq, ← h.stale]
    cases hstale : t.stale with
    | true => exact .inl ⟨rfl, rfl⟩
    | false => exact .inr ⟨t.byName, rfl, Bool.false_ne_true, h.rightView hstale⟩
  · exact .inr hrefused

end YaccGrammar.SymbolTable
