import YaccGrammar.Symbol.Table

/-!
# Lookups in symbol tables

How the operations on a table change what a lookup finds. A change of one symbol leaves the others
alone; a change of all symbols keeps their numbers.

## Main statements

- `get?_modify`: only the symbol that is changed is found changed.
- `mapSymbols_modify`: a change of a field is invisible where the field is overwritten.
-/

namespace YaccGrammar

/-! ## Kinds -/

/-- A name that passes for a terminal makes one. -/
theorem SymbolKind.ofName_of_isTerminal {n : String} (h : Name.isTerminal n = true) :
    ofName n = .terminal :=
  if_pos h

/-- A name that passes for a nonterminal makes one. -/
theorem SymbolKind.ofName_of_isNonterminal {n : String} (h : Name.isNonterminal n = true) :
    ofName n = .nonterminal := by
  rw [ofName, Name.isTerminal_eq_false_of_isNonterminal h]
  rfl

namespace SymbolTable

/-! ## Changes of one symbol -/

/-- A change of one symbol adds none. -/
@[simp] theorem size_modify (t : SymbolTable) (id : SymbolId) (f : Symbol → Symbol) :
    (t.modify id f).size = t.size := by
  simp [modify, size]

/-- Only the symbol that is changed is found changed. -/
theorem get?_modify (t : SymbolTable) (id s : SymbolId) (f : Symbol → Symbol) :
    (t.modify id f).get? s = if s = id then (t.get? s).map f else t.get? s := by
  simp only [modify, get?, List.getElem?_modify]
  -- the symbol that is changed, and all others
  by_cases h : s = id
  · subst h
    simp
  · simp [h, Ne.symm h]

/-- Two changes of one symbol are one. -/
theorem modify_modify (t : SymbolTable) (id : SymbolId) (f g : Symbol → Symbol) :
    (t.modify id f).modify id g = t.modify id (g ∘ f) := by
  simp only [modify, List.modify_modify_eq]

/-- Changing nothing about a symbol changes nothing. -/
theorem modify_eq_self {f : Symbol → Symbol} (hf : ∀ x, f x = x) (t : SymbolTable)
    (s : SymbolId) : t.modify s f = t := by
  have hid : f = id := funext hf
  rw [hid, modify, List.modify_id]

/-- A change that leaves the symbol as it is changes nothing. -/
theorem modify_eq_self_of_get? {t : SymbolTable} {id : SymbolId} {x : Symbol}
    (hx : t.get? id = some x) {f : Symbol → Symbol} (hf : f x = x) : t.modify id f = t := by
  have hsymbols : t.symbols.modify id f = t.symbols := by
    -- number by number, because the symbol is known only by its number
    apply List.ext_getElem?
    intro s
    rw [List.getElem?_modify]
    by_cases hs : id = s
    · subst hs
      rw [get?] at hx
      simp [hx, hf]
    · simp [hs]
  rw [modify, hsymbols]

/-- The numbers of symbols are those below the size. -/
theorem get?_isSome_iff {t : SymbolTable} {id : SymbolId} :
    (t.get? id).isSome = true ↔ id < t.size := by
  simp [get?, size]

/-- Every number below the size is that of a symbol. -/
theorem exists_get?_of_lt {t : SymbolTable} {id : SymbolId} (h : id < t.size) :
    ∃ x, t.get? id = some x :=
  Option.isSome_iff_exists.mp (get?_isSome_iff.mpr h)

/-- The number of a symbol is below the size. -/
theorem lt_size_of_get? {t : SymbolTable} {id : SymbolId} {x : Symbol} (h : t.get? id = some x) :
    id < t.size :=
  get?_isSome_iff.mp (by rw [h]; rfl)

/-- A symbol that is found tells whether it is nullable. -/
theorem isNullable_eq_of_get? {t : SymbolTable} {id : SymbolId} {x : Symbol}
    (h : t.get? id = some x) : t.isNullable id = x.nullable := by
  rw [isNullable, h, Option.any_some]

/-! ## Changes of all symbols -/

/-- Changes every symbol. -/
def mapSymbols (f : Symbol → Symbol) (t : SymbolTable) : SymbolTable :=
  { t with symbols := t.symbols.map f }

/-- A change of all symbols adds none. -/
@[simp] theorem size_mapSymbols (f : Symbol → Symbol) (t : SymbolTable) :
    (t.mapSymbols f).size = t.size := by
  simp [mapSymbols, size]

/-- A change of all symbols is seen at every number. -/
theorem get?_mapSymbols (f : Symbol → Symbol) (t : SymbolTable) (s : SymbolId) :
    (t.mapSymbols f).get? s = (t.get? s).map f := by
  simp [mapSymbols, get?]

/-- What a change leaves alone is the same for all symbols. -/
theorem map_symbols_modify {β : Type} {f : Symbol → β} {g : Symbol → Symbol}
    (h : ∀ x, f (g x) = f x) (t : SymbolTable) (id : SymbolId) :
    (t.modify id g).symbols.map f = t.symbols.map f := by
  apply List.ext_getElem?
  intro s
  simp only [modify, List.getElem?_map, List.getElem?_modify, Option.map_eq_map, Option.map_map]
  congr 1
  funext x
  simp only [Function.comp_apply]
  -- only at one number is anything changed
  split
  · exact h x
  · rfl

/-- A change is not to be seen where it is overwritten. -/
theorem mapSymbols_modify {f g : Symbol → Symbol} (h : ∀ x, f (g x) = f x) (t : SymbolTable)
    (id : SymbolId) : (t.modify id g).mapSymbols f = t.mapSymbols f := by
  have hmap := map_symbols_modify h t id
  simp only [mapSymbols, modify] at hmap ⊢
  rw [hmap]

/-- Tables that agree but for a field agree altogether if they agree in that field. -/
theorem eq_of_mapSymbols_eq {f : Symbol → Symbol} {t t' : SymbolTable}
    (h : t.mapSymbols f = t'.mapSymbols f)
    (hfield : ∀ s x y, t.get? s = some x → t'.get? s = some y → f x = f y → x = y) : t = t' := by
  have hsymbols : t.symbols = t'.symbols := by
    apply List.ext_getElem?
    intro s
    have hs : (t.get? s).map f = (t'.get? s).map f := by
      rw [← get?_mapSymbols, ← get?_mapSymbols, h]
    show t.get? s = t'.get? s
    -- a number is that of a symbol in both tables or in neither
    cases hx : t.get? s with
    | none =>
      rw [hx] at hs
      exact (Option.map_eq_none_iff.mp hs.symm).symm
    | some x =>
      rw [hx] at hs
      obtain ⟨y, hy, hxy⟩ := Option.map_eq_some_iff.mp hs.symm
      rw [hy, hfield s x y hx hy hxy.symm]
  -- the other fields are not touched, so they agree already
  obtain ⟨symbols, view, stale, terminals, nonterminals⟩ := t
  obtain ⟨symbols', view', stale', terminals', nonterminals'⟩ := t'
  simp only [mapSymbols, SymbolTable.mk.injEq] at h hsymbols ⊢
  exact ⟨hsymbols, h.2⟩

end SymbolTable

end YaccGrammar
