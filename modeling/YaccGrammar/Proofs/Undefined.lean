import Mathlib.Data.List.Basic
import YaccGrammar.Grammar.Undefined

/-!
# Undefined symbols

A check of the whole grammar finds nonterminals without rules. What it reports is known from the
rules: none of it is fatal, and each finding on a right-hand side stands on the line of a rule that
uses the nonterminal.

## Main statements

- `mem_keys_firstPerKey`, `find?_of_mem_firstPerKey`, `pairwise_firstPerKey`: which pairs are kept,
  and in which order.
- `rule_of_mem_verify`: the rule on whose line a nonterminal is reported.
-/

namespace YaccGrammar.Grammar

/-! ## First pairs -/

/-- Which pairs are kept depends on the first components. -/
theorem firstPerKey_map (f : Nat → Nat) (seen : List SymbolId) (l : List (SymbolId × Nat)) :
    firstPerKey seen (l.map fun p => (p.1, f p.2)) =
      (firstPerKey seen l).map fun p => (p.1, f p.2) := by
  induction l generalizing seen with
  | nil => rfl
  | cons p l ih =>
    simp only [List.map_cons, firstPerKey]
    split
    · exact ih seen
    · rw [List.map_cons, ih]

section FirstPerKey

variable {seen seen' : List SymbolId} {l : List (SymbolId × Nat)} {p : SymbolId × Nat}
  {s : SymbolId}

/-- A key is kept if there is one that was not seen before. -/
theorem mem_keys_firstPerKey :
    s ∈ (firstPerKey seen l).map Prod.fst ↔ s ∉ seen ∧ s ∈ l.map Prod.fst := by
  induction l generalizing seen with
  | nil => simp [firstPerKey]
  | cons q l ih =>
    rw [firstPerKey, List.map_cons, List.mem_cons]
    split
    next hq =>
      rw [ih]
      have hne (hs : s ∉ seen) : s ≠ q.1 := by
        rintro rfl
        exact hs (List.contains_iff_mem.mp hq)
      exact and_congr_right fun hs => (or_iff_right (hne hs)).symm
    next hq =>
      rw [List.map_cons, List.mem_cons, ih, List.mem_cons, not_or]
      by_cases hs : s = q.1
      · subst hs
        simpa using hq
      · simp [hs]

/-- No key is kept twice. -/
theorem nodup_keys_firstPerKey (seen : List SymbolId) (l : List (SymbolId × Nat)) :
    ((firstPerKey seen l).map Prod.fst).Nodup := by
  induction l generalizing seen with
  | nil => exact List.nodup_nil
  | cons q l ih =>
    rw [firstPerKey]
    split
    · exact ih seen
    · rw [List.map_cons, List.nodup_cons]
      -- the key of this pair has been seen by the others
      exact ⟨fun h => (mem_keys_firstPerKey.mp h).1 List.mem_cons_self, ih (q.1 :: seen)⟩

theorem notMem_seen_of_mem_firstPerKey (hp : p ∈ firstPerKey seen l) : p.1 ∉ seen :=
  (mem_keys_firstPerKey.mp (List.mem_map_of_mem hp)).1

/-- The pair that is kept for a key is the first one with this key. -/
theorem find?_of_mem_firstPerKey (hp : p ∈ firstPerKey seen l) :
    l.find? (fun q => q.1 = p.1) = some p := by
  induction l generalizing seen with
  | nil => cases hp
  | cons q l ih =>
    rw [firstPerKey] at hp
    split at hp
    next hq =>
      have hne : q.1 ≠ p.1 := by
        intro heq
        exact notMem_seen_of_mem_firstPerKey hp (heq ▸ List.contains_iff_mem.mp hq)
      rw [List.find?_cons_of_neg (by simpa using hne), ih hp]
    next =>
      rcases List.mem_cons.mp hp with rfl | hp
      · exact List.find?_cons_of_pos (by simp)
      · have hne : q.1 ≠ p.1 := by
          intro heq
          exact notMem_seen_of_mem_firstPerKey hp (heq ▸ List.mem_cons_self)
        rw [List.find?_cons_of_neg (by simpa using hne), ih hp]

/-- Only what was there is kept. -/
theorem mem_of_mem_firstPerKey (hp : p ∈ firstPerKey seen l) : p ∈ l :=
  List.mem_of_find?_eq_some (find?_of_mem_firstPerKey hp)

/-- Pairs are kept in the order in which their keys occur for the first time. -/
theorem pairwise_firstPerKey (seen : List SymbolId) (l : List (SymbolId × Nat)) :
    (firstPerKey seen l).Pairwise fun p q =>
      (l.map Prod.fst).idxOf p.1 < (l.map Prod.fst).idxOf q.1 := by
  induction l generalizing seen with
  | nil => exact .nil
  | cons q l ih =>
    -- a key that was seen before is not one of those that are kept
    have hlater (p : SymbolId × Nat) (seen : List SymbolId) (hq : q.1 ∈ seen)
        (hp : p ∈ firstPerKey seen l) :
        ((q :: l).map Prod.fst).idxOf p.1 = (l.map Prod.fst).idxOf p.1 + 1 := by
      apply List.idxOf_cons_ne
      intro heq
      exact notMem_seen_of_mem_firstPerKey hp (heq ▸ hq)
    have hshift (seen : List SymbolId) (hq : q.1 ∈ seen) : (firstPerKey seen l).Pairwise fun p p' =>
        ((q :: l).map Prod.fst).idxOf p.1 < ((q :: l).map Prod.fst).idxOf p'.1 := by
      refine (ih seen).imp_of_mem fun hp hp' hlt => ?_
      rw [hlater _ seen hq hp, hlater _ seen hq hp']
      exact Nat.succ_lt_succ hlt
    rw [firstPerKey]
    split
    next hq => exact hshift seen (List.contains_iff_mem.mp hq)
    next =>
      refine List.pairwise_cons.mpr ⟨fun p hp => ?_, hshift _ List.mem_cons_self⟩
      rw [hlater p _ List.mem_cons_self hp, List.map_cons, List.idxOf_cons_self]
      exact Nat.succ_pos _

/-- It makes no difference whether keys are dropped before or after. -/
theorem firstPerKey_filter (keep : SymbolId → Bool)
    (h : ∀ s, keep s = true → (s ∈ seen ↔ s ∈ seen')) (l : List (SymbolId × Nat)) :
    firstPerKey seen (l.filter fun p => keep p.1) =
      (firstPerKey seen' l).filter fun p => keep p.1 := by
  induction l generalizing seen seen' with
  | nil => rfl
  | cons q l ih =>
    have hcons (s : SymbolId) (hs : keep s = true) : s ∈ q.1 :: seen ↔ s ∈ q.1 :: seen' := by
      rw [List.mem_cons, List.mem_cons, h s hs]
    cases hq : keep q.1 with
    | true =>
      have hcontains : seen.contains q.1 = seen'.contains q.1 := by
        rw [Bool.eq_iff_iff, List.contains_iff_mem, List.contains_iff_mem, h q.1 hq]
      simp only [List.filter_cons, hq, if_true, firstPerKey, hcontains]
      split
      · exact ih h
      · simp only [List.filter_cons, hq, if_true, ih hcons]
    | false =>
      simp only [List.filter_cons, hq, Bool.false_eq_true, if_false, firstPerKey]
      split
      · exact ih h
      · -- the key that is dropped is seen on one side only
        simp only [List.filter_cons, hq, Bool.false_eq_true, if_false]
        refine ih fun s hs => ?_
        have hne : s ≠ q.1 := by
          rintro rfl
          exact Bool.false_ne_true (hq.symm.trans hs)
        rw [List.mem_cons, or_iff_right hne, h s hs]

end FirstPerKey

/-! ## Findings -/

variable {g : Grammar} {file : String} {e : Diagnostic}

/-- A finding is on the use of a nonterminal or on the start symbol. -/
theorem mem_verify_cases (he : e ∈ g.verify file) :
    (∃ r ∈ g.rules, ∃ id ∈ r.rhs, g.isUndefined id = true ∧
      e = ⟨⟨file, r.line⟩, .undefinedNonterminal (g.name id)⟩) ∨
      ∃ id, e = ⟨⟨file, 0⟩, .undefinedStart (g.name id)⟩ := by
  rcases List.mem_append.mp he with hused | hstart
  · obtain ⟨use, huse, rfl⟩ := List.mem_map.mp hused
    obtain ⟨r, hr, hmem⟩ := List.mem_flatMap.mp (mem_of_mem_firstPerKey huse)
    obtain ⟨id, hid, rfl⟩ := List.mem_map.mp hmem
    obtain ⟨hrhs, hundefined⟩ := List.mem_filter.mp hid
    exact .inl ⟨r, hr, id, hrhs, hundefined, rfl⟩
  · unfold undefinedStart at hstart
    split at hstart
    · split at hstart
      · cases hstart
      · rw [Option.toList_some, List.mem_singleton] at hstart
        exact .inr ⟨_, hstart⟩
    · cases hstart

/-- What is wrong with a grammar that was read to its end is not fatal. -/
theorem isFatal_of_mem_verify (he : e ∈ g.verify file) : e.isFatal = false := by
  rcases mem_verify_cases he with ⟨r, -, id, -, -, rfl⟩ | ⟨id, rfl⟩ <;> rfl

/-- A nonterminal without rules is reported on the line of a rule that uses it. -/
theorem rule_of_mem_verify {n : String} (he : e ∈ g.verify file)
    (hn : e.problem = .undefinedNonterminal n) :
    ∃ r ∈ g.rules, e.location.line = r.line ∧
      ∃ id ∈ r.rhs, g.isUndefined id = true ∧ g.name id = n := by
  rcases mem_verify_cases he with ⟨r, hr, id, hid, hundefined, rfl⟩ | ⟨id, rfl⟩
  · exact ⟨r, hr, rfl, id, hid, hundefined, Problem.undefinedNonterminal.inj hn⟩
  · cases hn

end YaccGrammar.Grammar
