import YaccGrammar.Guarded.Analysis
import YaccGrammar.Proofs.Guarded.Grammar

/-!
# No access fails in the analysis

Visits keep the number of symbols, so the symbols of a rule exist in every pass; and passes come to
an end. So the guarded analysis of a grammar whose rules name symbols that exist is the plain one.

## Main statements

- `settle_eq_ok`: passes that come to an end are repeated without a fault.
- `analyze_eq_ok`: a grammar is analysed without a fault.
-/

namespace YaccGrammar.Guarded

open Fault

/-! ## Repeated passes -/

section Passes

variable {visit' : SymbolTable → Rule → Except Fault (Bool × SymbolTable)}
  {visit : SymbolTable → Rule → Bool × SymbolTable} {size : Nat}

/-- A pass meets no fault if none of its visits does. -/
theorem pass_eq_ok {rules : List Rule}
    (hvisit : ∀ t, ∀ r ∈ rules, t.size = size → visit' t r = .ok (visit t r))
    (hsize : ∀ t r, (visit t r).2.size = t.size) {t : SymbolTable} (ht : t.size = size) :
    pass visit' rules t = .ok (Analysis.pass visit rules t) := by
  induction rules generalizing t with
  | nil => rfl
  | cons r rules ih =>
    -- a visit keeps the number of symbols, so the next rule finds its own
    have hlater := ih (fun t r' hr' => hvisit t r' (List.mem_cons_of_mem r hr'))
      ((hsize t r).trans ht)
    rw [pass, hvisit t r List.mem_cons_self ht, ok_bind, hlater]
    rfl

/-- Steps are repeated without a fault if one of them changes nothing. -/
theorem settle_eq_ok {step' : SymbolTable → Except Fault (Bool × SymbolTable)}
    {step : SymbolTable → Bool × SymbolTable}
    (hstep : ∀ t, t.size = size → step' t = .ok (step t))
    (hsize : ∀ t, (step t).2.size = t.size) {k n : Nat} {t : SymbolTable} (ht : t.size = size)
    (hlast : (step ((fun t => (step t).2)^[k] t)).1 = false) (hn : k < n) :
    settle step' n t = .ok (Analysis.settle step n t) := by
  induction n generalizing k t with
  | zero => exact absurd hn (Nat.not_lt_zero k)
  | succ n ih =>
    rw [settle, hstep t ht, ok_bind, Analysis.settle]
    cases hchange : (step t).1 with
    | false => rfl
    | true =>
      -- the step that changes nothing is a later one
      obtain ⟨k, rfl⟩ : ∃ k', k = k' + 1 := by
        refine Nat.exists_eq_succ_of_ne_zero ?_
        rintro rfl
        exact Bool.false_ne_true (hlast.symm.trans hchange)
      rw [Function.iterate_succ_apply] at hlast
      simp [ih ((hsize t).trans ht) hlast (Nat.lt_of_succ_lt_succ hn)]

variable {ι : Type} {marked : ι → SymbolTable → SymbolId → Prop}
  {adds : ι → SymbolTable → Rule → Prop} {erase : SymbolTable → SymbolTable}

/-- A loop over the rules meets no fault if none of its visits does. -/
theorem settleRules_eq_ok (m : Analysis.Marking visit marked adds erase) {g : Grammar}
    (hg : g.InRange)
    (hvisit : ∀ t, ∀ r ∈ g.rules, t.size = g.table.size → visit' t r = .ok (visit t r)) :
    settleRules visit' g = .ok (Analysis.settleRules visit g).2 := by
  -- the passes come to an end before the bound does
  obtain ⟨k, hk, hlast, -⟩ := m.exists_unchanged fun r hr => (hg r hr).1
  have hcard := Analysis.Marking.card_heads_le g.rules
  have hpass (t : SymbolTable) (ht : t.size = g.table.size) :
      pass visit' g.rules t = .ok (Analysis.pass visit g.rules t) :=
    pass_eq_ok hvisit m.size_visit ht
  rw [settleRules, settle_eq_ok hpass (m.size_pass g.rules) rfl hlast
    (Nat.lt_succ_of_le (hk.trans hcard))]
  rfl

end Passes

/-! ## Visits -/

section Visits

variable {t : SymbolTable} {r : Rule}

/-- A visit that looks for nullable symbols meets no fault if the symbols of the rule exist. -/
theorem visitNullable_eq_ok (hlhs : r.lhs < t.size) (hrhs : ∀ id ∈ r.rhs, id < t.size) :
    visitNullable t r = .ok (Analysis.visitNullable t r) := by
  obtain ⟨x, hx⟩ := SymbolTable.exists_get?_of_lt hlhs
  have hall : (r.rhs.allM fun id => do return (← symbol t id).nullable) =
      .ok (r.rhs.all t.isNullable) := by
    apply allM_eq_ok
    intro id hid
    obtain ⟨y, hy⟩ := SymbolTable.exists_get?_of_lt (hrhs id hid)
    simp [symbol_eq_ok hy, SymbolTable.isNullable_eq_of_get? hy]
  rw [visitNullable, symbol_eq_ok hx, ok_bind, hall, ok_bind, modifySymbol_eq_ok hlhs,
    Analysis.visitNullable, SymbolTable.isNullable_eq_of_get? hx]
  exact (apply_ite Except.ok _ _ _).symm

/-- Looking for the precedence of a rule meets no fault if its symbols exist. -/
theorem rulePrecedence_eq_ok (hrhs : ∀ id ∈ r.rhs, id < t.size) :
    rulePrecedence t r = .ok (Analysis.rulePrecedence t r) := by
  unfold rulePrecedence Analysis.rulePrecedence
  cases r.precSymbol with
  | some id => rfl
  | none =>
    apply findM?_eq_ok
    intro id hid
    obtain ⟨y, hy⟩ := SymbolTable.exists_get?_of_lt (hrhs id hid)
    simp [symbol_eq_ok hy, SymbolTable.hasPrecedence, hy]

/-- The rules are given their precedences without a fault. -/
theorem backfillPrecedence_eq_ok {g : Grammar} (hg : g.InRange) :
    backfillPrecedence g = .ok (Analysis.backfillPrecedence g) := by
  have hrules : (g.rules.mapM fun r => do
      return { r with precSymbol := ← rulePrecedence g.table r }) =
      .ok (Analysis.backfillPrecedence g).rules := by
    apply mapM_eq_ok
    intro r hr
    rw [rulePrecedence_eq_ok (hg r hr).2]
    rfl
  rw [backfillPrecedence, hrules]
  rfl

/-- A set is given the block that it lacks. -/
theorem insert_eq_ok (n : Nat) (s : BitSet) : insert n s = .ok (s.insert n).2 := by
  have hlength : n / 64 < (s.padded (n / 64 + 1)).length := by
    rw [BitSet.padded, List.length_append, List.length_replicate]
    omega
  rw [insert, List.getElem?_eq_getElem hlength]

/-- What a right-hand side offers is collected without a fault if its symbols exist. -/
theorem collectFirst_eq_ok {lhs : SymbolId} {rhs : List SymbolId} (hrhs : ∀ id ∈ rhs, id < t.size)
    (found : BitSet) :
    collectFirst t lhs rhs found = .ok (Analysis.collectFirst t lhs rhs found) := by
  induction rhs generalizing found with
  | nil => rfl
  | cons id rhs ih =>
    rw [List.forall_mem_cons] at hrhs
    obtain ⟨x, hx⟩ := SymbolTable.exists_get?_of_lt hrhs.1
    rw [collectFirst, symbol_eq_ok hx, ok_bind, insert_eq_ok, Analysis.collectFirst, hx]
    -- the cases of the plain function: a terminal, the left-hand side itself, another nonterminal
    dsimp only
    split
    · rfl
    split
    · split
      · exact ih hrhs.2 found
      · rfl
    · split
      · exact ih hrhs.2 _
      · rfl

/-- A visit that looks for first-sets meets no fault if the symbols of the rule exist. -/
theorem visitFirst_eq_ok (hlhs : r.lhs < t.size) (hrhs : ∀ id ∈ r.rhs, id < t.size) :
    visitFirst t r = .ok (Analysis.visitFirst t r) := by
  obtain ⟨x, hx⟩ := SymbolTable.exists_get?_of_lt hlhs
  rw [visitFirst, symbol_eq_ok hx, ok_bind, collectFirst_eq_ok hrhs, ok_bind, Analysis.visitFirst,
    hx]
  dsimp only
  rw [modifySymbol_eq_ok hlhs]
  rfl

end Visits

/-! ## The analysis -/

/-- The nullable symbols are flagged without a fault. -/
theorem computeNullable_eq_ok {g : Grammar} (hg : g.InRange) :
    settleRules visitNullable g = .ok (Analysis.computeNullable g).2 :=
  settleRules_eq_ok Analysis.nullableMarking hg fun _ r hr ht =>
    visitNullable_eq_ok (ht ▸ (hg r hr).1) fun id hid => ht ▸ (hg r hr).2 id hid

/-- First-sets are computed without a fault. -/
theorem computeFirstSets_eq_ok {g : Grammar} (hg : g.InRange) :
    settleRules visitFirst g = .ok (Analysis.computeFirstSets g).2 :=
  settleRules_eq_ok Analysis.firstMarking hg fun _ r hr ht =>
    visitFirst_eq_ok (ht ▸ (hg r hr).1) fun id hid => ht ▸ (hg r hr).2 id hid

/-- A grammar is analysed without a fault if its rules name symbols that exist. -/
theorem analyze_eq_ok {g : Grammar} (hg : g.InRange) : analyze g = .ok g.analyze := by
  -- no part of the analysis adds or removes a symbol
  have hsorted : g.sorted.InRange := by
    unfold Grammar.InRange
    rw [Fresh.size_sorted]
    exact hg
  have hnullable : (Analysis.computeNullable g.sorted).2.InRange := by
    unfold Grammar.InRange
    rw [Analysis.size_computeNullable hsorted]
    exact hsorted
  have hprepared : g.prepared.InRange := by
    intro r hr
    obtain ⟨r', hr', rfl⟩ := List.mem_map.mp hr
    exact hnullable r' hr'
  rw [analyze, sort_eq_ok, ok_bind]
  show (settleRules visitNullable g.sorted >>= fun g => backfillPrecedence g >>= fun g =>
    settleRules visitFirst g) = _
  rw [computeNullable_eq_ok hsorted, ok_bind, backfillPrecedence_eq_ok hnullable, ok_bind]
  exact computeFirstSets_eq_ok hprepared

end YaccGrammar.Guarded
