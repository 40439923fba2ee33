import YaccGrammar.Guarded.Grammar
import YaccGrammar.Proofs.Reading.Chain
import YaccGrammar.Proofs.Reading.Document
import YaccGrammar.Proofs.Undefined

/-!
# No access to a grammar fails

A grammar is sound when every number that occurs in it is that of a symbol or of a rule, and when
the rules of each symbol form a chain that ends. On a sound grammar the guarded operations do what
the plain ones do.

## Main statements

- `chain_eq_ok`: the chain of a symbol holds its rules, and it ends.
- `rulesFor_eq_ok`, `hasRules_eq_ok`: so what is asked of chains is answered.
- `sort_eq_ok`, `verify_eq_ok`: whole operations meet no fault.
-/

namespace YaccGrammar

open Fault

namespace Guarded

/-! ## Tables -/

section Tables

variable {t : SymbolTable} {id : SymbolId}

/-- A symbol that exists is found. -/
theorem symbol_eq_ok {x : Symbol} (hx : t.get? id = some x) : symbol t id = .ok x := by
  rw [symbol, hx]

/-- A symbol that exists can be changed. -/
theorem modifySymbol_eq_ok (hid : id < t.size) (f : Symbol → Symbol) :
    modifySymbol t id f = .ok (t.modify id f) := by
  obtain ⟨x, hx⟩ := SymbolTable.exists_get?_of_lt hid
  simp [modifySymbol, symbol_eq_ok hx]

/-- A symbol that is of the kind already is moved from no count to another. -/
theorem setKind_eq_ok {x : Symbol} (hx : t.get? id = some x) {kind : SymbolKind}
    (hkind : x.kind = kind) : setKind t id kind = .ok (t.setKind id kind) := by
  rw [SymbolTable.setKind_eq_self hx hkind]
  simp [setKind, symbol_eq_ok hx, hkind]

/-- The table in which the symbols of a view know their positions, counted from `start`. -/
def numbered (start : Nat) (view : List SymbolId) (t : SymbolTable) : SymbolTable :=
  { t with symbols := t.symbols.mapIdx fun id x =>
      if id ∈ view then { x with index := start + view.idxOf id } else x }

/-- Numbering a view is numbering its first symbol and then the others. -/
theorem numbered_cons {view : List SymbolId} (hid : id ∉ view) (start : Nat) (t : SymbolTable) :
    numbered (start + 1) view (t.modify id fun x => { x with index := start }) =
      numbered start (id :: view) t := by
  refine congrArg (fun symbols => { t with symbols }) (List.ext_getElem? fun i => ?_)
  simp only [SymbolTable.modify, List.getElem?_mapIdx, List.getElem?_modify]
  -- the first symbol has its number, which the others leave alone
  by_cases hi : id = i
  · subst hi
    simp [hid, Function.comp_def]
  · simp [hi, Ne.symm hi, List.idxOf_cons_ne view hi, Nat.add_right_comm _ 1, Nat.add_assoc]

/-- The symbols of a view are numbered without a fault, if they exist and none occurs twice. -/
theorem number_eq_ok {view : List SymbolId} (hnodup : view.Nodup)
    (hview : ∀ id ∈ view, id < t.size) (start : Nat) :
    number start view t = .ok (numbered start view t) := by
  induction view generalizing t start with
  | nil => simp [number, numbered, List.mapIdx_eq_zipIdx_map]
  | cons id view ih =>
    rw [List.forall_mem_cons] at hview
    -- no symbol is numbered twice, so no number is written over
    obtain ⟨hnew, hnodup⟩ := List.nodup_cons.mp hnodup
    rw [number, modifySymbol_eq_ok hview.1, ok_bind, ih hnodup (by simpa using hview.2),
      numbered_cons hnew]

/-- The names that a sort compares are read without a fault. -/
theorem keys_eq_ok (t : SymbolTable) :
    ((List.range t.size).mapM fun id => do return ((← symbol t id).name, id)) =
      .ok (t.symbols.map Symbol.name).zipIdx := by
  have hzip : (t.symbols.map Symbol.name).zipIdx =
      (List.range t.size).map fun id => (t.name id, id) := by
    apply List.ext_getElem
    · simp [SymbolTable.size]
    · intro i hi hi'
      simp only [List.length_zipIdx, List.length_map] at hi
      simp [SymbolTable.name, SymbolTable.get?, hi]
  rw [hzip]
  apply mapM_eq_ok
  intro id hid
  obtain ⟨x, hx⟩ := SymbolTable.exists_get?_of_lt (List.mem_range.mp hid)
  simp [symbol_eq_ok hx, SymbolTable.name_eq_of_get? hx]

/-- A table is sorted without a fault, whatever it holds. -/
theorem sort_eq_ok (t : SymbolTable) : sort t = .ok t.sort := by
  unfold sort SymbolTable.sort
  split
  · rw [keys_eq_ok, ok_bind]
    change (number 0 t.byName t >>= fun t' => .ok { t' with view := t.byName, stale := false }) = _
    rw [number_eq_ok t.nodup_byName fun id hid => SymbolTable.mem_byName.mp hid, ok_bind]
    -- the view holds every symbol, so every symbol gets a position
    have hsymbols : (numbered 0 t.byName t).symbols =
        t.symbols.mapIdx fun id x => { x with index := t.byName.idxOf id } := by
      apply List.ext_getElem
      · simp [numbered]
      · intro i hi hi'
        have hmem : i ∈ t.byName := by
          simpa [numbered, SymbolTable.mem_byName, SymbolTable.size] using hi
        simp [numbered, hmem]
    rw [hsymbols]
    rfl
  · rfl

end Tables

/-! ## Rules -/

section Rules

variable {g : Grammar}

/-- A rule that exists is found. -/
theorem ruleAt_eq_ok {id : RuleId} {r : Rule} (hr : g.rule? id = some r) : g.ruleAt id = .ok r := by
  rw [Grammar.ruleAt, hr]

/-- A rule that exists can be changed. -/
theorem modifyRule_eq_ok {id : RuleId} {r : Rule} (hr : g.rule? id = some r) (f : Rule → Rule) :
    modifyRule g id f = .ok (g.modifyRule id f) := by
  simp [modifyRule, ruleAt_eq_ok hr]

/-- A rule is added without a fault if its left-hand side exists. -/
theorem addRule_eq_ok {lhs : SymbolId} (hlhs : lhs < g.table.size) (line : Nat) :
    addRule g lhs line = .ok (g.addRule lhs line) := by
  obtain ⟨x, hx⟩ := SymbolTable.exists_get?_of_lt hlhs
  simp [addRule, Grammar.addRule, symbol_eq_ok hx, modifySymbol_eq_ok hlhs, hx]

/-- A chain leads backwards, so it is at its end after as many rules as there are before it. -/
theorem chain_eq_ok (hg : g.Chained) (lhs : SymbolId) {k n : Nat} (hk : k ≤ n) :
    chain g n (lastBelow g.rules lhs k) = .ok (rulesBelow g.rules lhs k) := by
  induction k generalizing n with
  | zero => cases n <;> rfl
  | succ k ih =>
    rw [lastBelow, rulesBelow]
    split
    · next hrule =>
      obtain ⟨r, hr, rfl⟩ := Option.map_eq_some_iff.mp hrule
      obtain ⟨n, rfl⟩ : ∃ m, n = m + 1 := ⟨n - 1, by omega⟩
      -- the link leads to the rules below, and one step fewer is enough for them
      rw [chain, ruleAt_eq_ok hr, ok_bind, hg.next k r hr, ih (Nat.le_of_succ_le_succ hk)]
      rfl
    · -- a rule of another symbol is not on the chain
      exact ih (Nat.le_of_succ_le hk)

/-- The rules of a symbol are found without a fault. -/
theorem rulesFor_eq_ok (hg : g.Chained) {lhs : SymbolId} (hlhs : lhs < g.table.size) :
    rulesFor g lhs = .ok (rulesBelow g.rules lhs g.rules.length) := by
  obtain ⟨x, hx⟩ := SymbolTable.exists_get?_of_lt hlhs
  rw [rulesFor, symbol_eq_ok hx, ok_bind, hg.first lhs x hx, chain_eq_ok hg lhs (Nat.le_refl _)]

/-- Whether a symbol has rules is found out without a fault. -/
theorem hasRules_eq_ok (hg : g.Chained) {id : SymbolId} (hid : id < g.table.size) :
    hasRules g id = .ok (g.hasRules id) := by
  obtain ⟨x, hx⟩ := SymbolTable.exists_get?_of_lt hid
  rw [hasRules, Grammar.hasRules, symbol_eq_ok hx, ok_bind, hx]
  cases hfirst : x.firstRule with
  | none => simp [hfirst]
  | some first =>
    -- the rule that the symbol knows exists
    have hlt := (lt_of_lastBelow ((hg.first id x hx).symm.trans hfirst)).2
    have hne : g.rules ≠ [] := List.ne_nil_of_length_pos (Nat.zero_lt_of_lt hlt)
    simp [hfirst, ruleAt_eq_ok (List.getElem?_eq_getElem hlt), hne]

/-- The name of a symbol that exists is found. -/
theorem name_eq_ok {id : SymbolId} (hid : id < g.table.size) : name g id = .ok (g.name id) := by
  obtain ⟨x, hx⟩ := SymbolTable.exists_get?_of_lt hid
  simp [name, symbol_eq_ok hx, Grammar.name, SymbolTable.name_eq_of_get? hx]

/-- A rule is printed without a fault if its symbols exist. -/
theorem displayRule_eq_ok {r : Rule} (hlhs : r.lhs < g.table.size)
    (hrhs : ∀ id ∈ r.rhs, id < g.table.size)
    (hprec : ∀ id, r.precSymbol = some id → id < g.table.size) :
    displayRule g r = .ok (g.displayRule r) := by
  have hnames : r.rhs.mapM (name g) = .ok (r.rhs.map g.name) :=
    mapM_eq_ok fun id hid => name_eq_ok (hrhs id hid)
  unfold displayRule Grammar.displayRule
  rw [name_eq_ok hlhs, ok_bind, hnames, ok_bind]
  -- a precedence is printed behind the names, if there is one
  cases hid : r.precSymbol with
  | none => simp [Function.comp_def]
  | some id => simp [name_eq_ok (hprec id hid), Function.comp_def]

end Rules

/-! ## Sound grammars -/

/-- Every number that occurs in the grammar is that of a symbol or of a rule. -/
structure Sound (g : Grammar) : Prop where
  inRange : g.InRange
  prec : ∀ r ∈ g.rules, ∀ id, r.precSymbol = some id → id < g.table.size
  start : ∀ id, g.declaredStart = some id → id < g.table.size
  chained : g.Chained

namespace Sound

variable {g : Grammar}

/-- Whether a symbol is undefined is found out without a fault. -/
theorem isUndefined_eq_ok (hg : Sound g) {id : SymbolId} (hid : id < g.table.size) :
    isUndefined g id = .ok (g.isUndefined id) := by
  obtain ⟨x, hx⟩ := SymbolTable.exists_get?_of_lt hid
  rw [isUndefined, Grammar.isUndefined, symbol_eq_ok hx, ok_bind, hx,
    hasRules_eq_ok hg.chained hid]
  cases hterminal : x.isTerminal <;> simp [hterminal]

/-- The uses of undefined symbols are found without a fault. -/
theorem undefinedUses_eq_ok (hg : Sound g) : undefinedUses g = .ok g.undefinedUses := by
  have hrule (r : Rule) (hr : r ∈ g.rules) :
      r.rhs.filterM (isUndefined g) = .ok (r.rhs.filter g.isUndefined) :=
    filterM_eq_ok fun id hid => hg.isUndefined_eq_ok ((hg.inRange r hr).2 id hid)
  have huses : (g.rules.mapM fun r => do
      return (← r.rhs.filterM (isUndefined g)).map fun id => (id, r.line)) =
      .ok (g.rules.map fun r => (r.rhs.filter g.isUndefined).map fun id => (id, r.line)) := by
    apply mapM_eq_ok
    intro r hr
    rw [hrule r hr]
    rfl
  rw [undefinedUses, huses]
  rfl

/-- The undefined symbols that are found exist. -/
theorem lt_size_of_mem_undefinedUses (hg : Sound g) {p : SymbolId × Nat}
    (hp : p ∈ g.undefinedUses) : p.1 < g.table.size := by
  obtain ⟨r, hr, hp⟩ := List.mem_flatMap.mp hp
  obtain ⟨id, hid, rfl⟩ := List.mem_map.mp hp
  exact (hg.inRange r hr).2 id (List.mem_filter.mp hid).1

/-- The undefined symbols are reported without a fault. -/
theorem undefinedNonterminals_eq_ok (hg : Sound g) (file : String) :
    undefinedNonterminals g file = .ok (g.undefinedNonterminals file) := by
  rw [undefinedNonterminals, hg.undefinedUses_eq_ok, ok_bind]
  apply mapM_eq_ok
  intro p hp
  have hlt := hg.lt_size_of_mem_undefinedUses (Grammar.mem_of_mem_firstPerKey hp)
  simp [name_eq_ok hlt]

/-- The start symbol exists, whether it is declared or not. -/
theorem lt_size_of_start? (hg : Sound g) {id : SymbolId} (hid : g.start? = some id) :
    id < g.table.size := by
  unfold Grammar.start? at hid
  cases hdeclared : g.declaredStart with
  | some declared =>
    rw [hdeclared] at hid
    cases hid
    exact hg.start id hdeclared
  -- without a declaration the first rule tells the start symbol
  | none =>
    rw [hdeclared] at hid
    obtain ⟨r, hr, rfl⟩ := Option.map_eq_some_iff.mp hid
    exact (hg.inRange r (List.mem_of_head? hr)).1

/-- A start symbol without rules is reported without a fault. -/
theorem undefinedStart_eq_ok (hg : Sound g) (file : String) :
    undefinedStart g file = .ok (g.undefinedStart file) := by
  rw [undefinedStart, Grammar.undefinedStart]
  cases hid : g.start? with
  | none => rfl
  | some id =>
    have hlt := hg.lt_size_of_start? hid
    simp only [hasRules_eq_ok hg.chained hlt, ok_bind, name_eq_ok hlt]
    split <;> rfl

/-- The check for undefined symbols meets no fault. -/
theorem verify_eq_ok (hg : Sound g) (file : String) : verify g file = .ok (g.verify file) := by
  rw [verify, hg.undefinedNonterminals_eq_ok, ok_bind, hg.undefinedStart_eq_ok]
  rfl

end Sound

end Guarded

end YaccGrammar
