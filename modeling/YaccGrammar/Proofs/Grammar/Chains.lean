import YaccGrammar.Proofs.Grammar.History

/-!
# Chains partition the rules

The chain of a symbol holds the rules of that symbol and no others, the last one first. It has no
cycle, since links lead backwards; it loses no rule, since a new rule is linked in front; and it
shares no rule with another chain, since a rule has one left-hand side.

## Main statements

- `Chained.follows`: the links lead from one rule of a symbol to the one before it.
- `Chained.partitioned`: what chains in order hold.
- `chains_partition_rules`: the chains of a grammar with any history.
-/

namespace YaccGrammar

/-! ## Walks along a chain -/

/-- The rules that are passed from a first one on, link by link, up to the last link. -/
inductive Grammar.Follows (g : Grammar) : Option RuleId → List RuleId → Prop where
  | stop : Follows g none []
  | step {id : RuleId} {r : Rule} {ids : List RuleId} (hr : g.rule? id = some r)
      (h : Follows g r.nextLhs ids) : Follows g (some id) (id :: ids)

/-- Below a number there are at most as many rules of a symbol. -/
theorem length_rulesBelow_le (rules : List Rule) (lhs : SymbolId) (k : Nat) :
    (rulesBelow rules lhs k).length ≤ k := by
  induction k with
  | zero => exact Nat.le_refl 0
  | succ k ih =>
    rw [rulesBelow]
    split
    · exact Nat.succ_le_succ ih
    · exact Nat.le_succ_of_le ih

/-- The rules of a symbol are listed from the last one down. -/
theorem pairwise_rulesBelow (rules : List Rule) (lhs : SymbolId) (k : Nat) :
    (rulesBelow rules lhs k).Pairwise (· > ·) := by
  induction k with
  | zero => exact .nil
  | succ k ih =>
    rw [rulesBelow]
    split
    · -- all rules that follow are below this one
      exact List.pairwise_cons.mpr ⟨fun j hj => (mem_rulesBelow.mp hj).1, ih⟩
    · exact ih

namespace Grammar

variable {g : Grammar}

/-- A walk that is given enough steps passes the whole chain. -/
theorem Follows.chain_eq {first : Option RuleId} {ids : List RuleId} (h : g.Follows first ids)
    {n : Nat} (hn : ids.length ≤ n) : g.chain n first = ids := by
  -- each link of the walk takes one of the steps that are allowed
  induction h generalizing n with
  | stop => cases n <;> rfl
  | step hr _ ih =>
    obtain ⟨m, rfl⟩ := Nat.exists_eq_add_of_lt hn
    rw [chain, hr, Option.bind_some, ih (Nat.le_add_right ..)]

namespace Chained

/-- The links lead from one rule of a symbol to the one before it. -/
theorem follows (hg : g.Chained) (lhs : SymbolId) (k : Nat) :
    g.Follows (lastBelow g.rules lhs k) (rulesBelow g.rules lhs k) := by
  induction k with
  | zero => exact .stop
  | succ k ih =>
    rw [lastBelow, rulesBelow]
    split
    next hk =>
      obtain ⟨r, hr, rfl⟩ := Option.map_eq_some_iff.mp hk
      -- the link of this rule is the one that the induction is about
      exact .step hr (hg.next k r hr ▸ ih)
    next => exact ih

/-- The chain of a symbol lists all of its rules, and the walk along it ends in time. -/
theorem rulesFor_eq (hg : g.Chained) {lhs : SymbolId} (hlhs : lhs < g.table.size) :
    g.rulesFor lhs = rulesBelow g.rules lhs g.rules.length := by
  obtain ⟨x, hx⟩ := SymbolTable.exists_get?_of_lt hlhs
  rw [rulesFor, hx, Option.bind_some, hg.first lhs x hx]
  exact (hg.follows lhs g.rules.length).chain_eq (length_rulesBelow_le ..)

/-- A rule is on the chain of a symbol exactly if the symbol is its left-hand side. -/
theorem mem_rulesFor (hg : g.Chained) {lhs : SymbolId} (hlhs : lhs < g.table.size) (k : RuleId) :
    k ∈ g.rulesFor lhs ↔ (g.rule? k).map Rule.lhs = some lhs := by
  rw [hg.rulesFor_eq hlhs, mem_rulesBelow]
  refine and_iff_right_of_imp fun h => ?_
  obtain ⟨r, hr, -⟩ := Option.map_eq_some_iff.mp h
  exact (List.getElem?_eq_some_iff.mp hr).1

end Chained

/-! ## Partitions -/

/-- The chains of the symbols divide the rules among them. -/
structure Partitioned (g : Grammar) : Prop where
  /-- A walk along a chain meets no fault: it finds each rule, and it comes to an end. -/
  ends (s : SymbolId) (x : Symbol) (hx : g.table.get? s = some x) :
    Guarded.rulesFor g s = .ok (g.rulesFor s) ∧ g.Follows x.firstRule (g.rulesFor s)
  mem (s : SymbolId) (hs : s < g.table.size) (k : RuleId) :
    k ∈ g.rulesFor s ↔ (g.rule? k).map Rule.lhs = some s
  descending (s : SymbolId) (hs : s < g.table.size) : (g.rulesFor s).Pairwise (· > ·)
  /-- Every rule is on exactly one chain. -/
  unique (k : RuleId) (hk : k < g.rules.length) : ∃! s, s < g.table.size ∧ k ∈ g.rulesFor s
  disjoint (s s' : SymbolId) (hs : s < g.table.size) (hs' : s' < g.table.size) (hne : s ≠ s') :
    (g.rulesFor s).Disjoint (g.rulesFor s')

/-- Chains in order divide the rules. -/
theorem Chained.partitioned (hg : g.Chained) : g.Partitioned := by
  constructor
  case ends =>
    intro s x hx
    have hs := SymbolTable.lt_size_of_get? hx
    rw [Guarded.rulesFor_eq_ok hg hs, hg.rulesFor_eq hs, hg.first s x hx]
    exact ⟨rfl, hg.follows s g.rules.length⟩
  case mem => exact fun s hs => hg.mem_rulesFor hs
  case descending =>
    intro s hs
    rw [hg.rulesFor_eq hs]
    exact pairwise_rulesBelow ..
  case unique =>
    intro k hk
    -- it is the chain of the left-hand side
    have hr : g.rule? k = some g.rules[k] := List.getElem?_eq_getElem hk
    have hlhs : g.rules[k].lhs < g.table.size := hg.lhs _ (List.getElem_mem hk)
    refine ⟨g.rules[k].lhs, ⟨hlhs, ?_⟩, ?_⟩
    · rw [hg.mem_rulesFor hlhs, hr, Option.map_some]
    · rintro s ⟨hs, hmem⟩
      rw [hg.mem_rulesFor hs, hr, Option.map_some, Option.some_inj] at hmem
      exact hmem.symm
  case disjoint =>
    -- a rule on both chains would have two left-hand sides
    intro s s' hs hs' hne k hk hk'
    rw [hg.mem_rulesFor hs] at hk
    rw [hg.mem_rulesFor hs', hk, Option.some_inj] at hk'
    exact hne hk'

/-- Rule chains partition the rules. Whatever the calls are and in whichever order they come, a
grammar that they build has the rules that were added, and each of them is on the chain of its
left-hand side and on no other; chains are finite, and list the rules of their symbols once each,
the last one first. A history is refused only for a number that was not given out when it is used.
-/
theorem chains_partition_rules (cs : List Call) :
    (∃ g, calls {} cs = .ok g ∧ Valid cs ∧ g.table.names = firsts cs ∧
      g.rules.map Rule.lhs = heads cs ∧ g.Partitioned) ∨
      calls {} cs = .error .outOfRange ∧ ¬ Valid cs := by
  -- a history that is carried out leaves its chains in order
  rcases tracks_calls cs with ⟨g, hok, hvalid, h⟩ | hrefused
  · exact .inl ⟨g, hok, hvalid, h.names, h.lhs, h.intact.sound.chained.partitioned⟩
  · exact .inr hrefused

end Grammar

end YaccGrammar
