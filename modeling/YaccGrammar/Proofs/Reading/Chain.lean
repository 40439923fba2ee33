import YaccGrammar.Proofs.Reading.Effect

/-!
# Chains of rules

The rules of a symbol form a chain: the symbol knows its last rule, and every rule the one before it
for the same symbol. Links lead to rules that exist, and they lead backwards, so every chain ends.

## Main statements

- `Grammar.Chained.edit`, `Grammar.Chained.edits`: reading keeps the chains in order.
- `mem_rulesBelow`: which rules a chain holds.
-/

namespace YaccGrammar

/-! ## Links -/

/-- The last one of the first `k` rules that has the given left-hand side. -/
def lastBelow (rules : List Rule) (lhs : SymbolId) : Nat → Option RuleId
  | 0 => none
  | k + 1 => if (rules[k]?).map Rule.lhs = some lhs then some k else lastBelow rules lhs k

/-- The ones of the first `k` rules that have the given left-hand side, the last one first. -/
def rulesBelow (rules : List Rule) (lhs : SymbolId) : Nat → List RuleId
  | 0 => []
  | k + 1 =>
    if (rules[k]?).map Rule.lhs = some lhs then k :: rulesBelow rules lhs k
    else rulesBelow rules lhs k

/-- Only the left-hand sides of the rules below a number matter. -/
theorem lastBelow_congr {rules rules' : List Rule} {k : Nat}
    (h : ∀ j < k, (rules[j]?).map Rule.lhs = (rules'[j]?).map Rule.lhs) (lhs : SymbolId) :
    lastBelow rules lhs k = lastBelow rules' lhs k := by
  induction k with
  | zero => rfl
  | succ k ih =>
    rw [lastBelow, lastBelow, h k k.lt_succ_self, ih fun j hj => h j (Nat.lt_succ_of_lt hj)]

/-- A symbol that is no left-hand side has no last rule. -/
theorem lastBelow_eq_none {rules : List Rule} {lhs : SymbolId} (h : ∀ r ∈ rules, r.lhs ≠ lhs)
    (k : Nat) : lastBelow rules lhs k = none := by
  induction k with
  | zero => rfl
  | succ k ih =>
    rw [lastBelow, ih, if_neg]
    intro hk
    obtain ⟨r, hr, hlhs⟩ := Option.map_eq_some_iff.mp hk
    exact h r (List.mem_of_getElem? hr) hlhs

/-- The last rule below a number is below it, and exists. -/
theorem lt_of_lastBelow {rules : List Rule} {lhs : SymbolId} {k j : Nat}
    (h : lastBelow rules lhs k = some j) : j < k ∧ j < rules.length := by
  induction k with
  | zero => cases h
  | succ k ih =>
    rw [lastBelow] at h
    split at h
    · next hk =>
      obtain ⟨r, hr, -⟩ := Option.map_eq_some_iff.mp hk
      cases h
      exact ⟨j.lt_succ_self, (List.getElem?_eq_some_iff.mp hr).1⟩
    · exact ⟨Nat.lt_succ_of_lt (ih h).1, (ih h).2⟩

/-- The rules of a symbol below a number are those below it with this left-hand side. -/
theorem mem_rulesBelow {rules : List Rule} {lhs : SymbolId} {k j : Nat} :
    j ∈ rulesBelow rules lhs k ↔ j < k ∧ (rules[j]?).map Rule.lhs = some lhs := by
  induction k with
  | zero => simp [rulesBelow]
  | succ k ih =>
    rw [rulesBelow, Nat.lt_succ_iff_lt_or_eq, or_and_right, ← ih]
    split
    · next hk =>
      -- the last rule is one of them
      rw [List.mem_cons, or_comm]
      refine or_congr_right ⟨fun h => ⟨h, h ▸ hk⟩, fun h => h.1⟩
    · next hk =>
      refine ⟨.inl, fun h => h.resolve_right ?_⟩
      rintro ⟨rfl, hj⟩
      exact hk hj

/-- The symbols know their last rules, and every rule knows the one before it for the same symbol.
-/
structure Grammar.Chained (g : Grammar) : Prop where
  lhs : ∀ r ∈ g.rules, r.lhs < g.table.size
  first : ∀ id x, g.table.get? id = some x → x.firstRule = lastBelow g.rules id g.rules.length
  next : ∀ k r, g.rule? k = some r → r.nextLhs = lastBelow g.rules r.lhs k

/-- What a change of rules keeps is the same for all of them. -/
theorem Grammar.map_rules_modifyRule {β : Type} {f : Rule → β} {change : Rule → Rule}
    (h : ∀ r, f (change r) = f r) (g : Grammar) (id : RuleId) :
    (g.modifyRule id change).rules.map f = g.rules.map f := by
  apply List.ext_getElem?
  intro k
  simp only [modifyRule, List.getElem?_map, List.getElem?_modify, Option.map_eq_map,
    Option.map_map]
  congr 1
  funext r
  simp only [Function.comp_apply]
  split
  · exact h r
  · rfl

namespace Grammar.Chained

variable {g g' : Grammar}

/-- What symbols are besides their place in the chains does not matter. -/
theorem of_table (hg : g.Chained) (hrules : g'.rules = g.rules)
    (hsize : g.table.size ≤ g'.table.size)
    (hfirst : ∀ id x, g'.table.get? id = some x →
      (∃ y, g.table.get? id = some y ∧ x.firstRule = y.firstRule) ∨
        g.table.size ≤ id ∧ x.firstRule = none) : g'.Chained where
  lhs := by
    rw [hrules]
    exact fun r hr => Nat.lt_of_lt_of_le (hg.lhs r hr) hsize
  first := by
    intro id x hx
    rw [hrules]
    obtain ⟨y, hy, heq⟩ | ⟨hid, hnone⟩ := hfirst id x hx
    · rw [heq, hg.first id y hy]
    · -- a new symbol has no rules yet
      rw [hnone, lastBelow_eq_none]
      exact fun r hr => Nat.ne_of_lt (Nat.lt_of_lt_of_le (hg.lhs r hr) hid)
  next := by
    unfold Grammar.rule?
    rw [hrules]
    exact hg.next

/-- What rules are besides their left-hand sides and their links does not matter. -/
theorem of_rules (hg : g.Chained) (htable : g'.table = g.table)
    (hlhs : g'.rules.map Rule.lhs = g.rules.map Rule.lhs)
    (hnext : g'.rules.map Rule.nextLhs = g.rules.map Rule.nextLhs) : g'.Chained := by
  have hlast (lhs : SymbolId) (k : Nat) : lastBelow g'.rules lhs k = lastBelow g.rules lhs k :=
    lastBelow_congr (fun j _ => by rw [← List.getElem?_map, hlhs, List.getElem?_map]) lhs
  have hlength : g'.rules.length = g.rules.length := by
    rw [← List.length_map (f := Rule.lhs), hlhs, List.length_map]
  -- each rule stands where there was one with the same left-hand side and the same link
  have hrule (k : RuleId) (r' : Rule) (hr' : g'.rule? k = some r') :
      ∃ r, g.rule? k = some r ∧ r'.lhs = r.lhs ∧ r'.nextLhs = r.nextLhs := by
    have hlhsAt := congrArg (·[k]?) hlhs
    have hnextAt := congrArg (·[k]?) hnext
    unfold rule? at hr'
    simp only [List.getElem?_map, hr', Option.map_some] at hlhsAt hnextAt
    obtain ⟨r, hr, heq⟩ := Option.map_eq_some_iff.mp hlhsAt.symm
    rw [hr, Option.map_some, Option.some_inj] at hnextAt
    exact ⟨r, hr, heq.symm, hnextAt⟩
  constructor
  · intro r' hr'
    obtain ⟨k, hk⟩ := List.getElem?_of_mem hr'
    obtain ⟨r, hr, heq, -⟩ := hrule k r' hk
    rw [heq, htable]
    exact hg.lhs r (List.mem_of_getElem? hr)
  · intro s x hx
    rw [hlast, hlength]
    exact hg.first s x (htable ▸ hx)
  · intro k r' hr'
    obtain ⟨r, hr, heq, hlink⟩ := hrule k r' hr'
    rw [hlink, heq, hlast]
    exact hg.next k r hr

/-- A rule that keeps its left-hand side and its link can be changed. -/
theorem modifyRule (hg : g.Chained) (id : RuleId) {f : Rule → Rule} (hlhs : ∀ r, (f r).lhs = r.lhs)
    (hnext : ∀ r, (f r).nextLhs = r.nextLhs) : (g.modifyRule id f).Chained :=
  hg.of_rules rfl (map_rules_modifyRule hlhs g id) (map_rules_modifyRule hnext g id)

/-- A new rule is linked in front of the chain of its left-hand side. -/
theorem addRule (hg : g.Chained) {lhs : SymbolId} (hlhs : lhs < g.table.size) (line : Nat) :
    (g.addRule lhs line).2.Chained := by
  obtain ⟨x, hx⟩ := SymbolTable.exists_get?_of_lt hlhs
  let new : Rule := { lhs, line, nextLhs := x.firstRule }
  have hrules : (g.addRule lhs line).2.rules = g.rules ++ [new] := by
    simp [Grammar.addRule, hx, new]
  -- below the new rule the links are as before
  have hold {k : Nat} (hk : k ≤ g.rules.length) (s : SymbolId) :
      lastBelow (g.rules ++ [new]) s k = lastBelow g.rules s k :=
    lastBelow_congr (fun j hj => by rw [List.getElem?_append_left (by omega)]) s
  -- the new rule is the last one of its left-hand side, and of no other symbol
  have hnew (s : SymbolId) : lastBelow (g.rules ++ [new]) s (g.rules.length + 1) =
      if lhs = s then some g.rules.length else lastBelow g.rules s g.rules.length := by
    rw [lastBelow, hold (Nat.le_refl _)]
    simp [new]
  constructor
  · rw [hrules]
    show ∀ r ∈ g.rules ++ [new], r.lhs < (g.table.modify lhs _).size
    rw [SymbolTable.size_modify, List.forall_mem_append]
    exact ⟨hg.lhs, by simpa [new] using hlhs⟩
  · intro s y hy
    rw [hrules, List.length_append, List.length_singleton, hnew]
    simp only [Grammar.addRule, SymbolTable.get?_modify] at hy
    by_cases hs : s = lhs
    · subst hs
      rw [if_pos rfl, hx] at hy
      cases hy
      simp
    · -- another symbol knows the rule that it knew
      rw [if_neg hs] at hy
      rw [if_neg (Ne.symm hs)]
      exact hg.first s y hy
  · intro k r hr
    rw [rule?, hrules] at hr
    rw [hrules]
    rcases Nat.lt_or_ge k g.rules.length with hk | hk
    · rw [List.getElem?_append_left hk] at hr
      rw [hold hk.le]
      exact hg.next k r hr
    · rw [List.getElem?_append_right hk, List.getElem?_singleton] at hr
      split at hr
      · next hlast =>
        cases hr
        rw [Nat.le_antisymm (Nat.sub_eq_zero_iff_le.mp hlast) hk, hold (Nat.le_refl _)]
        exact hg.first lhs x hx
      · cases hr

/-- Each edit of a grammar keeps the chains in order. -/
theorem edit (hg : g.Chained) (h : Edit g g') : g'.Chained := by
  -- codes and the start symbol are in no chain, and a kind is not a link
  cases h with
  | codes | start => exact hg.of_table rfl (Nat.le_refl _) fun id x hx => .inl ⟨x, hx, rfl⟩
  | intern n =>
    refine hg.of_table rfl (SymbolTable.size_le_insert _ n) fun id x hx => ?_
    rcases SymbolTable.get?_insert hx with hx | ⟨hid, rfl⟩
    · exact .inl ⟨x, hx, rfl⟩
    · exact .inr ⟨hid, rfl⟩
  | symbol id hname hfirst =>
    refine hg.of_table rfl (by simp [modifyTable]) fun s x hx => .inl ?_
    simp only [modifyTable, SymbolTable.get?_modify] at hx
    split at hx
    · obtain ⟨y, hy, rfl⟩ := Option.map_eq_some_iff.mp hx
      exact ⟨y, hy, hfirst y⟩
    · exact ⟨x, hx, rfl⟩
  | kind id kind =>
    refine hg.of_table rfl (SymbolTable.size_setKind _ id kind).ge fun s x hx => .inl ?_
    obtain ⟨y, hy, heq⟩ := SymbolTable.get?_setKind hx
    exact ⟨y, hy, by rw [heq]⟩
  | rule id hlhs hnext => exact hg.modifyRule id hlhs hnext
  | addRule line hlhs =>
    refine hg.addRule ?_ line
    rcases hlhs with hlhs | ⟨r, hr, rfl⟩
    · exact hlhs
    · exact hg.lhs r hr

/-- Reading keeps the chains in order. -/
theorem edits (hg : g.Chained) (h : Edits g g') : g'.Chained := by
  induction h with
  | refl => exact hg
  | tail _ hedit ih => exact ih.edit hedit

end Grammar.Chained

end YaccGrammar
