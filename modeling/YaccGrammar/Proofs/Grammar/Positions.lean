import YaccGrammar.Proofs.Analysis.LeftCorner
import YaccGrammar.Proofs.Analysis.Stable
import YaccGrammar.Proofs.Symbol.View

/-!
# Entries are positions

Whatever is done to a grammar, every entry of a first-set is below the number of its symbols: the
analysis enters positions of symbols, no other call enters anything, and no symbol is taken away.
So the entries can be read as names as soon as the view is not stale.

## Main statements

- `bears_insert`, `bears_sort`, `bears_computeNullable` and so on: what leaves first-sets alone.
- `Positioned.after`, `positioned_calls`: entries stay in range, in every history.
- `Intact.firstSetNames_analyze`: the names in a first-set can be read.
-/

namespace YaccGrammar

open Analysis SymbolTable

/-! ## What leaves first-sets alone -/

namespace SymbolTable

variable {t t' : SymbolTable} {i : Nat} {s id : SymbolId} {kind : SymbolKind}

/-- Tables with the same first-sets bear the same entries. -/
theorem bears_congr (h : t.symbols.map Symbol.firstSet = t'.symbols.map Symbol.firstSet) :
    Bears i t s ↔ Bears i t' s := by
  have hs : (t.get? s).map Symbol.firstSet = (t'.get? s).map Symbol.firstSet := by
    rw [get?, get?, ← List.getElem?_map, ← List.getElem?_map, h]
  have hbears (t : SymbolTable) :
      Bears i t s ↔ ∃ b ∈ (t.get? s).map Symbol.firstSet, b.contains i = true := by
    simp [Bears]
  rw [hbears, hbears, hs]

/-- A change of a symbol that keeps its first-set keeps all entries. -/
theorem bears_modify {f : Symbol → Symbol} (hf : ∀ x, (f x).firstSet = x.firstSet)
    (t : SymbolTable) (id : SymbolId) : Bears i (t.modify id f) s ↔ Bears i t s :=
  bears_congr (map_symbols_modify hf t id)

/-- An insertion enters nothing into first-sets. -/
theorem bears_insert (t : SymbolTable) (n : String) : Bears i (t.insert n).2 s ↔ Bears i t s := by
  constructor
  · rintro ⟨x, hx, hi⟩
    rcases get?_insert hx with hx | ⟨-, rfl⟩
    · exact ⟨x, hx, hi⟩
    · -- a new symbol has no entries
      exact absurd hi (by simp [Symbol.ofName, BitSet.contains])
  · rintro ⟨x, hx, hi⟩
    exact ⟨x, get?_insert_of_get? hx n, hi⟩

/-- A new kind of a symbol enters nothing into first-sets. -/
theorem bears_setKind (h : Bears i (t.setKind id kind) s) : Bears i t s := by
  obtain ⟨x, hx, hi⟩ := h
  obtain ⟨y, hy, heq⟩ := get?_setKind hx
  exact ⟨y, hy, by rwa [heq] at hi⟩

/-- Sorting gives every symbol its position and changes nothing else, also if it need not be done.
-/
theorem get?_sort_eq (ht : t.Consistent) (s : SymbolId) :
    t.sort.get? s = (t.get? s).map fun x => { x with index := t.byName.idxOf s } := by
  cases hstale : t.stale with
  | true => exact get?_sort hstale s
  -- a fresh table has all positions as they should be
  | false =>
    rw [sort_of_fresh hstale]
    cases hx : t.get? s with
    | none => rfl
    | some x => rw [Option.map_some, ht.index hstale s x hx]

/-- Sorting enters nothing into first-sets. -/
theorem bears_sort (ht : t.Consistent) : Bears i t.sort s ↔ Bears i t s := by
  simp [Bears, get?_sort_eq ht]

end SymbolTable

namespace Grammar

variable {g : Grammar} {i : Nat} {s : SymbolId}

/-- Flagging the nullable symbols enters nothing into first-sets. -/
theorem bears_computeNullable (hg : g.InRange) :
    Bears i (Analysis.computeNullable g).2.table s ↔ Bears i g.table s := by
  have hfirst (t : SymbolTable) :
      (unflagged t).symbols.map Symbol.firstSet = t.symbols.map Symbol.firstSet := by
    simp [unflagged, mapSymbols]
  -- but for flags the table is the same, and flags are not entries
  apply SymbolTable.bears_congr
  rw [← hfirst, unflagged_computeNullable hg, hfirst]

/-- Nothing is entered before first-sets are computed. -/
theorem Intact.bears_prepared (hg : g.Intact) : Bears i g.prepared.table s ↔ Bears i g.table s :=
  (bears_computeNullable hg.sorted.sound.inRange).trans (bears_sort hg.consistent)

/-! ## Positions -/

/-- Every entry of a first-set is less than the number of symbols. -/
def Positioned (g : Grammar) : Prop := ∀ i s, Bears i g.table s → i < g.table.size

namespace Positioned

/-- Nothing is entered, and no symbol is taken away. -/
theorem of_bears {g' : Grammar} (h : g.Positioned) (hsize : g.table.size ≤ g'.table.size)
    (hbears : ∀ i s, Bears i g'.table s → Bears i g.table s) : g'.Positioned :=
  fun i s hi => (h i s (hbears i s hi)).trans_le hsize

/-- A terminal that stands at a corner has a position. -/
theorem computeFirstSets (hg : g.Intact) (h : g.Positioned) :
    (Analysis.computeFirstSets g).2.Positioned := by
  intro i s hbears
  have hsize : (Analysis.computeFirstSets g).2.table.size = g.table.size :=
    (SymbolTable.Enriched.settleRules .visitFirst g).size
  rw [hsize]
  -- an entry was there before, or it is the position of a terminal
  obtain ⟨s', -, hold | ⟨c, x, -, hx, -, rfl⟩⟩ := inherits_of_bears hg.sound.inRange hbears
  · exact h i s' hold
  · exact hg.roomy.index c x hx

/-- All of the analysis in front of the first-sets keeps the entries in range. -/
theorem prepared (hg : g.Intact) (h : g.Positioned) : g.prepared.Positioned :=
  h.of_bears g.enriched_prepared.size.ge fun _ _ => hg.bears_prepared.mp

/-- An analysis keeps the entries in range. -/
theorem analyze (hg : g.Intact) (h : g.Positioned) : g.analyze.Positioned :=
  (h.prepared hg).computeFirstSets hg.prepared

/-- What one call keeps. -/
theorem after (hg : g.Intact) (h : g.Positioned) (c : Call) : (g.after c).Positioned := by
  cases c with
  | insert n =>
    exact h.of_bears (size_le_insert g.table n) fun _ _ => (bears_insert g.table n).mp
  | setKind id kind =>
    exact h.of_bears (size_setKind g.table id kind).ge fun _ _ => bears_setKind
  | setSymbol id =>
    exact h.of_bears (size_modify ..).ge fun _ _ => (bears_modify (fun _ => by rfl) g.table id).mp
  | addRule lhs =>
    exact h.of_bears (size_modify ..).ge fun _ _ => (bears_modify (fun _ => by rfl) g.table lhs).mp
  | setRule | setCodes | backfillPrecedence => exact h
  | sort =>
    exact h.of_bears g.enriched_sorted.size.ge fun _ _ => (bears_sort hg.consistent).mp
  | computeNullable =>
    exact h.of_bears (size_computeNullable hg.sound.inRange).ge fun _ _ =>
      (bears_computeNullable hg.sound.inRange).mp
  | computeFirstSets => exact h.computeFirstSets hg
  | analyze => exact h.analyze hg

end Positioned

/-- Entries are positions after every history. -/
theorem positioned_calls {cs : List Call} (h : calls {} cs = .ok g) : g.Positioned := by
  induction cs using List.reverseRecOn generalizing g with
  | nil =>
    cases h
    rintro i s ⟨x, hx, -⟩
    cases hx
  | append_singleton cs c ih =>
    -- the last call was carried out, so the grammar before it was intact
    rw [calls_concat] at h
    rcases tracks_calls cs with ⟨g', hok, -, htracks⟩ | ⟨herror, -⟩
    · rw [hok, Fault.ok_bind, call] at h
      split at h
      next hc =>
        rw [htracks.intact.perform_eq_ok hc] at h
        cases h
        exact (ih hok).after htracks.intact c
      next => cases h
    · rw [herror] at h
      cases h

/-! ## Names -/

namespace Intact

/-- The view of an analysed grammar can be read. -/
theorem view_analyze (hg : g.Intact) :
    g.analyze.table.sorted = .ok g.analyze.table.byName := by
  have hstale : g.analyze.table.stale = false := by
    rw [← hg.sorted_analyze]
    exact stale_sort _
  rw [hg.analyze.consistent.sorted_eq, hstale]
  rfl

/-- The names in a first-set of an analysed grammar can be read. -/
theorem firstSetNames_analyze (hg : g.Intact) (h : g.Positioned) {x : Symbol}
    (hx : g.analyze.table.get? s = some x) :
    g.analyze.firstSetNames s = .ok (x.firstSet.toList.map g.analyze.table.nameAt) := by
  rw [firstSetNames, hx]
  -- every entry is a position in the view, and the view can be read
  apply Fault.mapM_eq_ok
  intro i hi
  have hsize := h.analyze hg i s ⟨x, hx, (BitSet.mem_toList _ i).mp hi⟩
  obtain ⟨id, hid⟩ := atIndex_of_lt hg.view_analyze hsize
  rw [hid, nameAt_eq ((atIndex_eq_ok_iff hg.view_analyze i id).mp hid)]
  rfl

end Intact

end Grammar

end YaccGrammar
