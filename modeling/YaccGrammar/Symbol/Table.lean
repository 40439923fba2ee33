import YaccGrammar.Fault
import YaccGrammar.Symbol.Basic

/-!
# Symbol tables

A table holds every symbol once, numbered in order of first insertion, counts the symbols of each
kind and keeps a view of all symbols sorted by name. An insertion makes the view stale; it cannot
be read until the table is sorted again.

## Main statements

- `find?_eq_some_iff`: a name is found at the first symbol that bears it.
- `sortBy_perm`, `pairwise_sortBy`: sorting keeps the members and puts them in order.
-/

namespace YaccGrammar

/-! ## Sorting -/

/-- Puts `a` in front of the first member that it does not exceed. -/
def insertBy (le : α → α → Bool) (a : α) : List α → List α
  | [] => [a]
  | b :: l => if le a b then a :: b :: l else b :: insertBy le a l

/-- Sorts a list. -/
def sortBy (le : α → α → Bool) (l : List α) : List α := l.foldr (insertBy le) []

/-- Putting a member in its place adds it. -/
theorem insertBy_perm (le : α → α → Bool) (a : α) (l : List α) :
    (insertBy le a l).Perm (a :: l) := by
  induction l with
  | nil => exact .refl _
  | cons b l ih =>
    rw [insertBy]
    split
    · exact .refl _
    · exact (ih.cons b).trans (.swap a b l)

/-- Sorting keeps the members. -/
theorem sortBy_perm (le : α → α → Bool) (l : List α) : (sortBy le l).Perm l := by
  induction l with
  | nil => exact .refl _
  | cons a l ih => exact (insertBy_perm le a _).trans (ih.cons a)

/-- A member is put where the order stays. -/
theorem pairwise_insertBy {le : α → α → Bool}
    (trans : ∀ a b c, le a b = true → le b c = true → le a c = true)
    (total : ∀ a b, le a b = true ∨ le b a = true) (a : α) {l : List α}
    (sorted : l.Pairwise (le · · = true)) : (insertBy le a l).Pairwise (le · · = true) := by
  induction l with
  | nil => exact List.pairwise_singleton _ a
  | cons b l ih =>
    obtain ⟨below, sorted⟩ := List.pairwise_cons.1 sorted
    rw [insertBy]
    split
    · next h =>
      -- the new member is below the first one, and that is below the others
      refine List.pairwise_cons.2 ⟨fun c mem => ?_, List.pairwise_cons.2 ⟨below, sorted⟩⟩
      rcases List.mem_cons.1 mem with rfl | mem
      · exact h
      · exact trans _ _ _ h (below c mem)
    · next h =>
      -- the first member stays the first: it is below the new one, by totality
      refine List.pairwise_cons.2 ⟨fun c mem => ?_, ih sorted⟩
      rcases List.mem_cons.1 ((insertBy_perm le a l).mem_iff.1 mem) with rfl | mem
      · exact (total _ _).resolve_left h
      · exact below c mem

/-- Sorting puts the members in order. -/
theorem pairwise_sortBy {le : α → α → Bool}
    (trans : ∀ a b c, le a b = true → le b c = true → le a c = true)
    (total : ∀ a b, le a b = true ∨ le b a = true) (l : List α) :
    (sortBy le l).Pairwise (le · · = true) := by
  induction l with
  | nil => exact .nil
  | cons a l ih => exact pairwise_insertBy trans total a ih

/-! ## Tables -/

/-- The symbols of a grammar. -/
structure SymbolTable where
  /-- All symbols, in order of first insertion. -/
  symbols : List Symbol := []
  /-- All symbols by name, as of the last sort. -/
  view : List SymbolId := []
  /-- Whether a symbol was inserted since the last sort. -/
  stale : Bool := false
  /-- Number of terminals. -/
  terminals : Nat := 0
  /-- Number of nonterminals. -/
  nonterminals : Nat := 0
  deriving DecidableEq

namespace SymbolTable

/-- Number of symbols. -/
def size (t : SymbolTable) : Nat := t.symbols.length

/-- The symbol with a number. -/
def get? (t : SymbolTable) (id : SymbolId) : Option Symbol := t.symbols[id]?

/-- The number of the symbol with a name. -/
def find? (t : SymbolTable) (name : String) : Option SymbolId :=
  t.symbols.findIdx? (·.name = name)

/-- The name of a symbol; empty for a number that no symbol has. -/
def name (t : SymbolTable) (id : SymbolId) : String := ((t.get? id).map Symbol.name).getD ""

/-- Whether a symbol is flagged nullable. -/
def isNullable (t : SymbolTable) (id : SymbolId) : Bool := (t.get? id).any Symbol.nullable

/-- Whether a symbol has a precedence. -/
def hasPrecedence (t : SymbolTable) (id : SymbolId) : Bool :=
  (t.get? id).any fun s => s.precedence.isSome

/-- Changes one symbol. -/
def modify (t : SymbolTable) (id : SymbolId) (f : Symbol → Symbol) : SymbolTable :=
  { t with symbols := t.symbols.modify id f }

/-- The symbol with a name, which is added if there is none yet. -/
def insert (t : SymbolTable) (name : String) : SymbolId × SymbolTable :=
  match t.find? name with
  | some id => (id, t)
  | none =>
    let symbol := Symbol.ofName name
    (t.symbols.length,
      { t with
        symbols := t.symbols ++ [symbol]
        stale := true
        terminals := if symbol.isTerminal then t.terminals + 1 else t.terminals
        nonterminals := if symbol.isTerminal then t.nonterminals else t.nonterminals + 1 })

/-- Makes a symbol one of the given kind and moves it from one count to the other. -/
def setKind (t : SymbolTable) (id : SymbolId) (kind : SymbolKind) : SymbolTable :=
  match t.get? id with
  | none => t
  | some symbol =>
    if symbol.kind = kind then t
    else
      let t := t.modify id fun s => { s with kind }
      match kind with
      | .terminal => { t with terminals := t.terminals + 1, nonterminals := t.nonterminals - 1 }
      | .nonterminal => { t with terminals := t.terminals - 1, nonterminals := t.nonterminals + 1 }

/-- All symbols in ascending order of their names. -/
def byName (t : SymbolTable) : List SymbolId :=
  (sortBy (fun a b => decide (a.1 ≤ b.1)) (t.symbols.map Symbol.name).zipIdx).map Prod.snd

/-- Renews the view and the positions of the symbols in it, if the view is stale. -/
def sort (t : SymbolTable) : SymbolTable :=
  if t.stale then
    let view := t.byName
    -- positions are those in the new view
    { t with
      symbols := t.symbols.mapIdx fun id s => { s with index := view.idxOf id }
      view
      stale := false }
  else t

/-- The symbols in order of their names, as of the last sort; refused while the view is stale. -/
def sorted (t : SymbolTable) : Except Fault (List SymbolId) :=
  if t.stale then .error .staleView else .ok t.view

/-- The symbol at a position of the sorted view. -/
def atIndex (t : SymbolTable) (index : Nat) : Except Fault SymbolId := do
  let view ← t.sorted
  match view[index]? with
  | some id => .ok id
  | none => .error .outOfRange

/-- A name is found at the first symbol that bears it. -/
theorem find?_eq_some_iff (t : SymbolTable) (name : String) (id : SymbolId) :
    t.find? name = some id ↔
      (t.get? id).map Symbol.name = some name ∧
        ∀ j < id, (t.get? j).map Symbol.name ≠ some name := by
  simp only [find?, get?, List.findIdx?_eq_some_iff_getElem, decide_eq_true_eq]
  constructor
  · rintro ⟨bound, here, before⟩
    refine ⟨by simp [bound, here], fun j lt => ?_⟩
    have inRange : j < t.symbols.length := Nat.lt_trans lt bound
    simpa [inRange] using before j lt
  · rintro ⟨here, before⟩
    obtain ⟨symbol, at_, here⟩ := Option.map_eq_some_iff.1 here
    obtain ⟨bound, rfl⟩ := List.getElem?_eq_some_iff.1 at_
    refine ⟨bound, here, fun j lt => ?_⟩
    have inRange : j < t.symbols.length := Nat.lt_trans lt bound
    simpa [inRange] using before j lt

end SymbolTable

end YaccGrammar
