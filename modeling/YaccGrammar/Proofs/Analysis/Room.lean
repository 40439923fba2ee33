import YaccGrammar.Proofs.Analysis.FirstNames
import YaccGrammar.Proofs.Symbol.Intern

/-!
# Room for all symbols

Positions are those of symbols, and no first-set has more blocks than the symbols of the table need.
Both hold of an empty table, and whatever is done to a table keeps them. While they hold, a set that
has room for all symbols never gets another block, and a first-set that has been visited once has
exactly as many blocks.

## Main statements

- `Roomy.insert`, `Roomy.sort`, `roomy_visitFirst`, `roomy_settleRules`: tables stay roomy.
- `length_collectFirst`: collecting needs no further block.
- `full_computeFirstSets`: the left-hand sides of rules get all blocks that are needed.
-/

namespace YaccGrammar

open Analysis

/-! ## Roomy tables -/

namespace SymbolTable

/-- The number of blocks that sets of positions need. -/
def room (t : SymbolTable) : Nat := (BitSet.withCapacity t.size).blocks.length

/-- Positions and first-sets fit into a set with room for all symbols. -/
structure Roomy (t : SymbolTable) : Prop where
  index : ∀ id x, t.get? id = some x → x.index < t.size
  blocks : ∀ id x, t.get? id = some x → x.firstSet.blocks.length ≤ t.room

/-- There is a block for every sixty-four symbols, and one for those that are left over. -/
theorem room_eq (t : SymbolTable) : t.room = (t.size + 63) / 64 := BitSet.length_withCapacity t.size

/-- A larger table needs no fewer blocks. -/
theorem room_mono {t t' : SymbolTable} (h : t.size ≤ t'.size) : t.room ≤ t'.room := by
  rw [room_eq, room_eq]
  omega

/-- The position of a symbol is in one of the blocks. -/
theorem div_lt_room {t : SymbolTable} {i : Nat} (h : i < t.size) : i / 64 < t.room := by
  rw [room_eq]
  omega

namespace Roomy

variable {t t' : SymbolTable} {id : SymbolId}

/-- A table without symbols has nothing that could be out of room. -/
theorem empty : Roomy {} where
  index := nofun
  blocks := nofun

/-- Symbols may come from a smaller table or be new, if they keep their positions and first-sets.
-/
theorem of_table (ht : t.Roomy) (hsize : t.size ≤ t'.size)
    (hsymbol : ∀ id x, t'.get? id = some x →
      (∃ y, t.get? id = some y ∧ x.index = y.index ∧ x.firstSet = y.firstSet) ∨
        x.index = 0 ∧ x.firstSet = {}) : t'.Roomy where
  index id x hx := by
    rcases hsymbol id x hx with ⟨y, hy, hindex, -⟩ | ⟨hindex, -⟩
    · -- a symbol of the old table
      rw [hindex]
      exact Nat.lt_of_lt_of_le (ht.index id y hy) hsize
    · rw [hindex]
      -- a new symbol is at the first position, which exists because the symbol does
      exact Nat.zero_lt_of_lt (lt_size_of_get? hx)
  blocks id x hx := by
    rcases hsymbol id x hx with ⟨y, hy, -, hfirst⟩ | ⟨-, hfirst⟩
    · rw [hfirst]
      exact (ht.blocks id y hy).trans (room_mono hsize)
    · rw [hfirst]
      exact Nat.zero_le _

/-- A new symbol has an empty first-set and stands, until the next sort, at the first position. -/
theorem insert (ht : t.Roomy) (n : String) : (t.insert n).2.Roomy := by
  refine ht.of_table (size_le_insert t n) fun id x hx => ?_
  rcases get?_insert hx with hx | ⟨-, rfl⟩
  · exact .inl ⟨x, hx, rfl, rfl⟩
  · exact .inr ⟨rfl, rfl⟩

/-- A kind is neither a position nor a first-set. -/
theorem setKind (ht : t.Roomy) (id : SymbolId) (kind : SymbolKind) : (t.setKind id kind).Roomy := by
  refine ht.of_table (size_setKind t id kind).ge fun s x hx => .inl ?_
  -- the symbols are the old ones but for their kinds
  obtain ⟨y, hy, heq⟩ := get?_setKind hx
  exact ⟨y, hy, by rw [heq], by rw [heq]⟩

/-- A change of one symbol keeps the table roomy if it keeps the position and the first-set of the
symbol. -/
theorem modify (ht : t.Roomy) (id : SymbolId) {f : Symbol → Symbol}
    (hindex : ∀ x, (f x).index = x.index) (hfirst : ∀ x, (f x).firstSet = x.firstSet) :
    (t.modify id f).Roomy := by
  refine ht.of_table (size_modify t id f).ge fun s x hx => .inl ?_
  rw [get?_modify] at hx
  split at hx
  · obtain ⟨y, hy, rfl⟩ := Option.map_eq_some_iff.mp hx
    exact ⟨y, hy, hindex y, hfirst y⟩
  · exact ⟨x, hx, rfl, rfl⟩

/-- Every symbol gets its position in the view, which lists all symbols. -/
theorem sort (ht : t.Roomy) : t.sort.Roomy := by
  cases hstale : t.stale with
  | false =>
    have hsame : t.sort = t := by simp [SymbolTable.sort, hstale]
    rwa [hsame]
  | true =>
    have hsize : t.sort.size = t.size := Fresh.size_sorted { table := t }
    constructor
    · intro id x hx
      have hid := lt_size_of_get? hx
      rw [get?_sort hstale] at hx
      obtain ⟨y, -, rfl⟩ := Option.map_eq_some_iff.mp hx
      rw [hsize] at hid ⊢
      -- every symbol is in the list of all symbols by name, so its place there is less than the
      -- size
      have hposition := List.idxOf_lt_length_iff.mpr (mem_byName.mpr hid)
      rwa [t.byName_perm.length_eq, List.length_range] at hposition
    · intro id x hx
      rw [get?_sort hstale] at hx
      obtain ⟨y, hy, rfl⟩ := Option.map_eq_some_iff.mp hx
      rw [room, hsize]
      exact ht.blocks id y hy

end Roomy

end SymbolTable

open SymbolTable

namespace Analysis

/-! ## Visits -/

section Visits

variable {t : SymbolTable} {r : Rule}

/-- A set that has room for all symbols gets no further block. -/
theorem length_collectFirst (ht : t.Roomy) {found : BitSet} (hfound : found.blocks.length = t.room)
    (lhs : SymbolId) (rhs : List SymbolId) :
    (collectFirst t lhs rhs found).blocks.length = t.room := by
  induction rhs generalizing found with
  | nil => exact hfound
  | cons id rhs ih =>
    simp only [collectFirst]
    split
    · exact hfound
    next x hx =>
      -- the union is as long as the longer of the two sets, and that is the one with room for all
      have hunion : (found.union x.firstSet).2.blocks.length = t.room := by
        rw [BitSet.length_union, hfound, Nat.max_eq_left (ht.blocks id x hx)]
      split
      · rw [BitSet.length_insert, hfound, Nat.max_eq_left (div_lt_room (ht.index id x hx))]
      split
      · split
        · exact ih hfound
        · exact hfound
      · split
        · exact ih hunion
        · exact hunion

/-- The set that is collected for one rule has as many blocks as the symbols of the table need. -/
theorem length_ruleFirst (ht : t.Roomy) (r : Rule) : (ruleFirst t r).blocks.length = t.room :=
  length_collectFirst ht rfl r.lhs r.rhs

/-- The first-set of a symbol has as many blocks as the symbols of the table need. -/
def Full (t : SymbolTable) (s : SymbolId) : Prop :=
  ∀ x, t.get? s = some x → x.firstSet.blocks.length = t.room

/-- A visit enters no symbol. -/
theorem size_visitFirst (t : SymbolTable) (r : Rule) : (visitFirst t r).2.size = t.size :=
  firstMarking.size_visit t r

/-- A visit leaves the number of blocks that are needed as it is. -/
theorem room_visitFirst (t : SymbolTable) (r : Rule) : (visitFirst t r).2.room = t.room := by
  rw [room, room, size_visitFirst]

/-- What a visit leaves of a symbol: it is as it was, or it is the left-hand side. -/
theorem get?_visitFirst {s : SymbolId} {x : Symbol} (hx : (visitFirst t r).2.get? s = some x) :
    t.get? s = some x ∨ s = r.lhs ∧ ∃ y, t.get? s = some y ∧
      x = { y with firstSet := (y.firstSet.union (ruleFirst t r)).2 } := by
  unfold visitFirst at hx
  split at hx
  · exact .inl hx
  next lhs hlhs =>
    rw [get?_modify] at hx
    split at hx
    next hs =>
      subst hs
      rw [hlhs, Option.map_some, Option.some.injEq] at hx
      exact .inr ⟨rfl, lhs, hlhs, hx.symm⟩
    next => exact .inl hx

/-- A visit that looks for nullable symbols keeps the table roomy. -/
theorem roomy_visitNullable (ht : t.Roomy) (r : Rule) : (visitNullable t r).2.Roomy := by
  unfold visitNullable
  split
  · exact ht
  · exact ht.modify r.lhs (fun _ => rfl) fun _ => rfl

/-- A visit gives the left-hand side as many blocks as are needed, and takes none from the others.
-/
theorem full_visitFirst (ht : t.Roomy) {s : SymbolId} (hs : s = r.lhs ∨ Full t s) :
    Full (visitFirst t r).2 s := by
  intro x hx
  rw [room_visitFirst]
  -- either the symbol is as it was, or the visit has changed it
  rcases get?_visitFirst hx with hold | ⟨-, y, hy, rfl⟩
  · rcases hs with rfl | hfull
    · -- the left-hand side exists, so it is found changed
      simp only [visitFirst, hold, get?_modify, if_true, Option.map_some, Option.some.injEq] at hx
      have hx := congrArg (fun x : Symbol => x.firstSet.blocks.length) hx
      dsimp only at hx
      rw [← hx, BitSet.length_union, length_ruleFirst ht, Nat.max_eq_right (ht.blocks _ x hold)]
    · exact hfull x hold
  · rw [BitSet.length_union, length_ruleFirst ht, Nat.max_eq_right (ht.blocks s y hy)]

/-- A visit that looks for first-sets keeps the table roomy. -/
theorem roomy_visitFirst (ht : t.Roomy) (r : Rule) : (visitFirst t r).2.Roomy where
  index s x hx := by
    rw [size_visitFirst]
    rcases get?_visitFirst hx with hx | ⟨-, y, hy, rfl⟩
    · exact ht.index s x hx
    · exact ht.index s y hy
  blocks s x hx := by
    rw [room_visitFirst]
    -- the symbol is as it was, or it has been given the blocks that are needed
    rcases get?_visitFirst hx with hold | ⟨rfl, -⟩
    · exact ht.blocks s x hold
    · exact ((full_visitFirst ht (.inl rfl) x hx).trans (room_visitFirst t r)).le

/-- A loop keeps a table roomy if each of its visits does. -/
theorem roomy_settleRules {visit : SymbolTable → Rule → Bool × SymbolTable}
    (hvisit : ∀ t r, SymbolTable.Roomy t → (visit t r).2.Roomy) {g : Grammar}
    (hg : g.table.Roomy) : (settleRules visit g).2.table.Roomy :=
  settle_induction (fun t r _ ht => hvisit t r ht) _ hg

end Visits

/-! ## Passes -/

/-- A pass keeps the table roomy, rule by rule. -/
theorem roomy_pass {rules : List Rule} {t : SymbolTable} (ht : t.Roomy) :
    (pass visitFirst rules t).2.Roomy := by
  induction rules generalizing t with
  | nil => exact ht
  | cons r rules ih => exact ih (roomy_visitFirst ht r)

/-- After a pass the left-hand sides have as many blocks as are needed. -/
theorem full_pass {rules : List Rule} {t : SymbolTable} (ht : t.Roomy) {s : SymbolId}
    (hs : s ∈ rules.map Rule.lhs ∨ Full t s) : Full (pass visitFirst rules t).2 s := by
  induction rules generalizing t with
  | nil => exact hs.resolve_left List.not_mem_nil
  | cons r rules ih =>
    apply ih (roomy_visitFirst ht r)
    -- the left-hand side is visited now or later, or it has its blocks already and keeps them
    rcases hs with hs | hs
    · rcases List.mem_cons.mp hs with rfl | hs
      · exact .inr (full_visitFirst ht (.inl rfl))
      · exact .inl hs
    · exact .inr (full_visitFirst ht (.inr hs))

/-- There is at least one pass, and those behind it take no block away. -/
theorem full_settle {rules : List Rule} {s : SymbolId} (hs : s ∈ rules.map Rule.lhs) (n : Nat)
    {t : SymbolTable} (ht : t.Roomy) : Full (settle (pass visitFirst rules) (n + 1) t).2 s := by
  have hfirst : (pass visitFirst rules t).2.Roomy ∧ Full (pass visitFirst rules t).2 s :=
    ⟨roomy_pass ht, full_pass ht (.inl hs)⟩
  -- the first pass gives the blocks, and every later one keeps them
  simp only [settle]
  split
  · refine (settle_induction (P := fun t => t.Roomy ∧ Full t s) ?_ n hfirst).2
    rintro t r - ⟨ht, hfull⟩
    exact ⟨roomy_visitFirst ht r, full_visitFirst ht (.inr hfull)⟩
  · exact hfirst.2

/-- After the computation of first-sets the left-hand side of every rule has as many blocks as are
needed. -/
theorem full_computeFirstSets {g : Grammar} (hg : g.table.Roomy) {r : Rule} (hr : r ∈ g.rules) :
    Full (computeFirstSets g).2.table r.lhs :=
  full_settle (List.mem_map_of_mem hr) g.rules.length hg

end Analysis

end YaccGrammar
