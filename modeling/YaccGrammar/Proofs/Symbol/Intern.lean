import Mathlib.Data.List.Induction
import Mathlib.Data.List.Nodup
import YaccGrammar.Proofs.Symbol.Sorted

/-!
# Interning names

What a table holds after a name has been looked up or added, told by the list of its names.

## Main statements

- `names_insert`: a name is added at the end if it is new.
- `names_insert_fst`: the number that comes back is that of the name.
- `map_modify_eq`: a change of the symbol with a given name, told by names.
-/

namespace YaccGrammar

/-- Repetitions are erased from left to right. -/
theorem eraseDups_concat (l : List String) (n : String) :
    (l ++ [n]).eraseDups = if n ∈ l then l.eraseDups else l.eraseDups ++ [n] := by
  rw [List.eraseDups_append]
  by_cases h : n ∈ l
  · simp [List.removeAll, h]
  · simp [List.removeAll, h, List.eraseDups_cons]

/-- Nothing is repeated once repetitions are erased. -/
theorem nodup_eraseDups (l : List String) : l.eraseDups.Nodup := by
  induction l using List.reverseRecOn with
  | nil => exact List.nodup_nil
  | append_singleton l n ih =>
    rw [eraseDups_concat]
    -- a repeated name is not added, and a new one is not there yet
    split
    · exact ih
    · next h =>
      refine List.nodup_append.mpr ⟨ih, List.nodup_singleton n, ?_⟩
      intro a ha b hb
      rw [List.mem_singleton.mp hb]
      rintro rfl
      exact h (List.mem_eraseDups.mp ha)

/-- What is said of the members of a list and of what stands in front of them, told member by
member. -/
theorem forall_prefix_concat {α : Type} {P : List α → α → Prop} {l : List α} {a : α} :
    (∀ before b, before ++ [b] <+: l ++ [a] → P before b) ↔
      (∀ before b, before ++ [b] <+: l → P before b) ∧ P l a := by
  simp only [List.prefix_concat_iff, List.append_singleton_inj]
  constructor
  · intro h
    exact ⟨fun before b hb => h before b (.inr hb), h l a (.inl ⟨rfl, rfl⟩)⟩
  · rintro ⟨h, ha⟩ before b (⟨rfl, rfl⟩ | hb)
    · exact ha
    · exact h before b hb

namespace SymbolTable

/-! ## Lookup -/

/-- A lookup searches the names from the first one on. -/
theorem find?_eq_findIdx? (t : SymbolTable) (n : String) :
    t.find? n = t.names.findIdx? (· = n) := by
  rw [names, List.findIdx?_map]
  rfl

/-- Just the names that are missing are not found. -/
theorem find?_eq_none_iff {t : SymbolTable} {n : String} : t.find? n = none ↔ n ∉ t.names := by
  rw [find?_eq_findIdx?, List.findIdx?_eq_none_iff]
  constructor
  · intro h hmem
    simpa using h n hmem
  · intro h m hm
    rw [decide_eq_false_iff_not]
    rintro rfl
    exact h hm

/-- What is found has the name. -/
theorem names_of_find? {t : SymbolTable} {n : String} {id : SymbolId} (h : t.find? n = some id) :
    t.names[id]? = some n := by
  rw [names_getElem?]
  exact ((t.find?_eq_some_iff n id).mp h).1

/-- Just the names that are there are found. -/
theorem find?_isSome_iff {t : SymbolTable} {n : String} :
    (t.find? n).isSome = true ↔ n ∈ t.names := by
  rw [Option.isSome_iff_ne_none, Ne, find?_eq_none_iff, not_not]

/-! ## Insertion -/

/-- An insertion adds the symbol of a new name at the end. -/
theorem symbols_insert (t : SymbolTable) (n : String) :
    (t.insert n).2.symbols =
      if n ∈ t.names then t.symbols else t.symbols ++ [Symbol.ofName n] := by
  unfold insert
  cases h : t.find? n with
  | none => rw [if_neg (find?_eq_none_iff.mp h)]
  | some id =>
    have hmem : n ∈ t.names := List.mem_of_getElem? (names_of_find? h)
    rw [if_pos hmem]

/-- An insertion adds a new name at the end. -/
theorem names_insert (t : SymbolTable) (n : String) :
    (t.insert n).2.names = if n ∈ t.names then t.names else t.names ++ [n] := by
  rw [names, symbols_insert]
  split
  · rfl
  · simp [names, Symbol.ofName]

/-- The number that comes back is that of the name. -/
theorem names_insert_fst (t : SymbolTable) (n : String) :
    (t.insert n).2.names[(t.insert n).1]? = some n := by
  rw [names_insert]
  unfold insert
  cases h : t.find? n with
  | none =>
    rw [if_neg (find?_eq_none_iff.mp h)]
    simp [names]
  -- a known name keeps the number at which it was found
  | some id =>
    have hid := names_of_find? h
    rw [if_pos (List.mem_of_getElem? hid)]
    exact hid

/-- The number that comes back is in range. -/
theorem insert_fst_lt_size (t : SymbolTable) (n : String) :
    (t.insert n).1 < (t.insert n).2.size := by
  rw [← length_names]
  exact (List.getElem?_eq_some_iff.mp (names_insert_fst t n)).1

/-- An insertion takes nothing away. -/
theorem size_le_insert (t : SymbolTable) (n : String) : t.size ≤ (t.insert n).2.size := by
  rw [size, size, symbols_insert]
  split <;> simp

/-- A symbol that is there stays where it is. -/
theorem get?_insert_of_get? {t : SymbolTable} {id : SymbolId} {x : Symbol}
    (hx : t.get? id = some x) (n : String) : (t.insert n).2.get? id = some x := by
  rw [get?, symbols_insert]
  split
  · exact hx
  · exact (List.getElem?_append_left (lt_size_of_get? hx)).trans hx

/-- A symbol that is found was there before, or it is new and behind all others. -/
theorem get?_insert {t : SymbolTable} {n : String} {id : SymbolId} {x : Symbol}
    (hx : (t.insert n).2.get? id = some x) :
    t.get? id = some x ∨ t.size ≤ id ∧ x = Symbol.ofName n := by
  rw [get?, symbols_insert] at hx
  split at hx
  · exact .inl hx
  · rcases Nat.lt_or_ge id t.size with hid | hid
    · rw [List.getElem?_append_left hid] at hx
      exact .inl hx
    · rw [List.getElem?_append_right hid, List.getElem?_singleton] at hx
      split at hx
      · cases hx
        exact .inr ⟨hid, rfl⟩
      · cases hx

/-! ## Changes of one symbol -/

/-- A change of kind adds no symbol. -/
theorem size_setKind (t : SymbolTable) (id : SymbolId) (kind : SymbolKind) :
    (t.setKind id kind).size = t.size := by
  unfold setKind
  split
  · rfl
  split
  · rfl
  · cases kind <;> exact size_modify t id _

/-- A symbol that is found behind a change of kind differs from the old one in its kind at most. -/
theorem get?_setKind {t : SymbolTable} {id s : SymbolId} {kind : SymbolKind} {x : Symbol}
    (hx : (t.setKind id kind).get? s = some x) :
    ∃ y, t.get? s = some y ∧ x = { y with kind := x.kind } := by
  unfold setKind at hx
  split at hx
  · exact ⟨x, hx, rfl⟩
  split at hx
  · exact ⟨x, hx, rfl⟩
  · -- the counts do not matter to a lookup
    have hmodify : (t.modify id fun y => { y with kind }).get? s = some x := by
      cases kind <;> exact hx
    rw [get?_modify] at hmodify
    split at hmodify
    · obtain ⟨y, hy, rfl⟩ := Option.map_eq_some_iff.mp hmodify
      exact ⟨y, hy, rfl⟩
    · exact ⟨x, hmodify, rfl⟩

/-- A change that keeps a name keeps all names. -/
theorem names_modify {f : Symbol → Symbol} (hname : ∀ x, (f x).name = x.name) (t : SymbolTable)
    (id : SymbolId) : (t.modify id f).names = t.names :=
  map_symbols_modify hname t id

/-- A change of kind touches no name. -/
theorem names_setKind (t : SymbolTable) (id : SymbolId) (kind : SymbolKind) :
    (t.setKind id kind).names = t.names := by
  have hmodify := names_modify (f := fun x => { x with kind }) (fun _ => rfl) t id
  unfold setKind
  split
  · rfl
  split
  · rfl
  · -- the counts do not matter to the names
    cases kind <;> exact hmodify

/-- Making a symbol what it is changes nothing. -/
theorem setKind_eq_self {t : SymbolTable} {id : SymbolId} {x : Symbol} (hx : t.get? id = some x)
    {kind : SymbolKind} (hkind : x.kind = kind) : t.setKind id kind = t := by
  simp [setKind, hx, hkind]

/-- The symbol with name `n` is changed by `g`. Where all symbols follow from their names by `f`,
they follow afterwards by a function that differs at `n` only. -/
theorem map_modify_eq {symbols : List Symbol} {names : List String} {u g v : Symbol → Symbol}
    {f f' : String → Symbol} (hmap : symbols.map u = names.map f) (hnames : names.Nodup)
    {id : SymbolId} {n : String} (hid : names[id]? = some n) (hg : ∀ x, u (g x) = v (u x))
    (hn : f' n = v (f n)) (hm : ∀ m, m ≠ n → f' m = f m) :
    (symbols.modify id g).map u = names.map f' := by
  apply List.ext_getElem?
  intro j
  have hj : (symbols[j]?).map u = (names[j]?).map f := by
    rw [← List.getElem?_map, ← List.getElem?_map, hmap]
  rw [List.getElem?_map, List.getElem?_modify, List.getElem?_map]
  -- only the symbol at `id` has the name `n`
  by_cases hij : id = j
  · subst hij
    rw [hid] at hj ⊢
    obtain ⟨x, hx, hux⟩ := Option.map_eq_some_iff.mp hj
    simp [hx, hg, hux, hn]
  · -- names are not repeated, so no other symbol has this one
    have hother : ∀ m, names[j]? = some m → m ≠ n := by
      rintro m hjm rfl
      obtain ⟨hlt, -⟩ := List.getElem?_eq_some_iff.mp hid
      exact hij ((List.getElem?_inj hlt hnames).mp (hid.trans hjm.symm))
    simp only [hij, if_false, id_map']
    rw [hj]
    cases hnj : names[j]? with
    | none => rfl
    | some m => rw [Option.map_some, Option.map_some, hm m (hother m hnj)]

end SymbolTable

end YaccGrammar
