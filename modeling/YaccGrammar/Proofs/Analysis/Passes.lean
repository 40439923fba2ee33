import Mathlib.Data.Finset.Card
import Mathlib.Data.Finset.Dedup
import Mathlib.Data.Nat.Find
import Mathlib.Logic.Function.Iterate
import YaccGrammar.Analysis.Settle

/-!
# Passes settle

Both analyses of this library mark symbols: one marks the nullable ones, the other puts the
positions of terminals on nonterminals. A visit of a rule can only mark the left-hand side of the
rule, and whether it does depends on the marks of the same sort that are there already. From this
alone it follows that repeated passes come to an end, and how soon.

## Main statements

- `Marking.quiet_iff`: a pass adds no mark of a sort exactly when no rule asks for one.
- `Marking.settles`: there are at most as many passes that change something as there are different
  left-hand sides, and the number of passes that `settle` may take is never the reason why it ends.
- `Marking.settleRules_closed`: what the rules ask for is marked in the end.
-/

namespace YaccGrammar.Analysis

/-! ## Marks -/

/-- What a visit does, told by marks: `marked i t s` says that symbol `s` bears mark `i`, and
`adds i t r` that a visit of rule `r` puts mark `i` on its left-hand side. The part of a table that
visits leave alone is what `erase` keeps. -/
structure Marking {ι : Type} (visit : SymbolTable → Rule → Bool × SymbolTable)
    (marked : ι → SymbolTable → SymbolId → Prop) (adds : ι → SymbolTable → Rule → Prop)
    (erase : SymbolTable → SymbolTable) : Prop where
  size_erase : ∀ t, (erase t).size = t.size
  erase_visit : ∀ t r, erase (visit t r).2 = erase t
  marked_visit : ∀ i t r s, r.lhs < t.size →
    (marked i (visit t r).2 s ↔ marked i t s ∨ s = r.lhs ∧ adds i t r)
  changed_visit : ∀ t r, r.lhs < t.size →
    ((visit t r).1 = true ↔ ∃ i, adds i t r ∧ ¬ marked i t r.lhs)
  /-- Whether mark `i` is added depends on the marks `i` and on what `erase` keeps. -/
  adds_congr : ∀ i t t' r, erase t = erase t' → (∀ s, marked i t s ↔ marked i t' s) →
    (adds i t r ↔ adds i t' r)

namespace Marking

variable {ι : Type} {visit : SymbolTable → Rule → Bool × SymbolTable}
  {marked : ι → SymbolTable → SymbolId → Prop} {adds : ι → SymbolTable → Rule → Prop}
  {erase : SymbolTable → SymbolTable}

/-- A visit adds no symbol. -/
theorem size_visit (m : Marking visit marked adds erase) (t : SymbolTable) (r : Rule) :
    (visit t r).2.size = t.size := by
  rw [← m.size_erase, m.erase_visit, m.size_erase]

/-- The left-hand sides stay symbols of the table. -/
theorem lhs_lt_size_visit (m : Marking visit marked adds erase) {r : Rule} {rules : List Rule}
    {t : SymbolTable} (hr : ∀ r' ∈ r :: rules, r'.lhs < t.size) :
    ∀ r' ∈ rules, r'.lhs < (visit t r).2.size := by
  intro r' hr'
  rw [m.size_visit]
  exact hr r' (List.mem_cons_of_mem _ hr')

/-! ## One pass -/

/-- A pass writes marks only. -/
theorem erase_pass (m : Marking visit marked adds erase) (rules : List Rule) (t : SymbolTable) :
    erase (pass visit rules t).2 = erase t := by
  induction rules generalizing t with
  | nil => rfl
  | cons r rules ih =>
    show erase (pass visit rules (visit t r).2).2 = erase t
    rw [ih, m.erase_visit]

/-- A pass adds no symbol. -/
theorem size_pass (m : Marking visit marked adds erase) (rules : List Rule) (t : SymbolTable) :
    (pass visit rules t).2.size = t.size := by
  rw [← m.size_erase, m.erase_pass, m.size_erase]

/-- A pass removes no mark. -/
theorem marked_pass (m : Marking visit marked adds erase) {rules : List Rule} {t : SymbolTable}
    (hr : ∀ r ∈ rules, r.lhs < t.size) {i : ι} {s : SymbolId} (h : marked i t s) :
    marked i (pass visit rules t).2 s := by
  induction rules generalizing t with
  | nil => exact h
  | cons r rules ih =>
    -- the first visit keeps the mark, and so do the others
    apply ih (m.lhs_lt_size_visit hr)
    exact (m.marked_visit i t r s (hr r List.mem_cons_self)).mpr (Or.inl h)

/-- A pass marks left-hand sides only. -/
theorem marked_or_lhs_of_pass (m : Marking visit marked adds erase) {rules : List Rule}
    {t : SymbolTable} (hr : ∀ r ∈ rules, r.lhs < t.size) {i : ι} {s : SymbolId}
    (h : marked i (pass visit rules t).2 s) : marked i t s ∨ s ∈ rules.map Rule.lhs := by
  induction rules generalizing t with
  | nil => exact Or.inl h
  | cons r rules ih =>
    have hr' := m.lhs_lt_size_visit hr
    -- a later visit marked the symbol, or the first one did, or it was marked before
    rcases ih hr' h with hmid | hlhs
    · rcases (m.marked_visit i t r s (hr r List.mem_cons_self)).mp hmid with hold | ⟨rfl, _⟩
      · exact Or.inl hold
      · exact Or.inr List.mem_cons_self
    · exact Or.inr (List.mem_cons_of_mem _ hlhs)

/-- A pass reports a change exactly when it marks something. -/
theorem changed_pass_iff (m : Marking visit marked adds erase) {rules : List Rule}
    {t : SymbolTable} (hr : ∀ r ∈ rules, r.lhs < t.size) :
    (pass visit rules t).1 = true ↔ ∃ i s, marked i (pass visit rules t).2 s ∧ ¬ marked i t s := by
  induction rules generalizing t with
  | nil =>
    constructor
    · intro h
      cases h
    · rintro ⟨i, s, h, hn⟩
      exact absurd h hn
  | cons r rules ih =>
    have hlhs : r.lhs < t.size := hr r List.mem_cons_self
    have hr' := m.lhs_lt_size_visit hr
    show ((visit t r).1 || (pass visit rules (visit t r).2).1) = true ↔
      ∃ i s, marked i (pass visit rules (visit t r).2).2 s ∧ ¬ marked i t s
    rw [Bool.or_eq_true, m.changed_visit t r hlhs, ih hr']
    constructor
    · rintro (⟨i, hadds, hn⟩ | ⟨i, s, hend, hn⟩)
      · -- what the first visit marks stays marked
        refine ⟨i, r.lhs, ?_, hn⟩
        exact m.marked_pass hr' ((m.marked_visit i t r _ hlhs).mpr (Or.inr ⟨rfl, hadds⟩))
      · refine ⟨i, s, hend, fun h => hn ?_⟩
        exact (m.marked_visit i t r s hlhs).mpr (Or.inl h)
    · rintro ⟨i, s, hend, hn⟩
      -- the new mark was made by the first visit or by a later one
      by_cases hmid : marked i (visit t r).2 s
      · rcases (m.marked_visit i t r s hlhs).mp hmid with hold | ⟨rfl, hadds⟩
        · exact absurd hold hn
        · exact Or.inl ⟨i, hadds, hn⟩
      · exact Or.inr ⟨i, s, hend, hmid⟩

/-! ## Passes that add no mark of one sort -/

/-- A pass over the rules puts mark `i` nowhere where it was not before. -/
def Quiet (visit : SymbolTable → Rule → Bool × SymbolTable)
    (marked : ι → SymbolTable → SymbolId → Prop) (i : ι) (rules : List Rule) (t : SymbolTable) :
    Prop :=
  ∀ s, marked i (pass visit rules t).2 s → marked i t s

/-- Within a pass the marks change under the visits, but as long as none of sort `i` is added every
rule finds those that the pass began with. -/
theorem quiet_iff (m : Marking visit marked adds erase) {rules : List Rule} {t : SymbolTable}
    (hr : ∀ r ∈ rules, r.lhs < t.size) (i : ι) :
    Quiet visit marked i rules t ↔ ∀ r ∈ rules, adds i t r → marked i t r.lhs := by
  induction rules generalizing t with
  | nil => exact ⟨fun _ r hmem => absurd hmem List.not_mem_nil, fun _ _ h => h⟩
  | cons r rules ih =>
    have hlhs : r.lhs < t.size := hr r List.mem_cons_self
    have hr' := m.lhs_lt_size_visit hr
    -- if the first visit adds nothing, the others see the same marks
    have hsame : (adds i t r → marked i t r.lhs) →
        ∀ s, marked i (visit t r).2 s ↔ marked i t s := by
      intro hfirst s
      rw [m.marked_visit i t r s hlhs]
      constructor
      · rintro (h | ⟨rfl, hadds⟩)
        · exact h
        · exact hfirst hadds
      · exact Or.inl
    constructor
    · -- a mark that the first visit adds would not be one of the pass
      intro hq
      have hfirst : adds i t r → marked i t r.lhs := by
        intro hadds
        apply hq
        exact m.marked_pass hr' ((m.marked_visit i t r _ hlhs).mpr (Or.inr ⟨rfl, hadds⟩))
      have hmid := hsame hfirst
      have htail : Quiet visit marked i rules (visit t r).2 :=
        fun s hend => (hmid s).mpr (hq s hend)
      intro r' hmem hadds
      rcases List.mem_cons.mp hmem with rfl | hmem
      · exact hfirst hadds
      · have hadds' := (m.adds_congr i _ _ r' (m.erase_visit t r) hmid).mpr hadds
        exact (hmid _).mp ((ih hr').mp htail r' hmem hadds')
    · -- conversely, no visit finds anything to add
      intro h s hend
      have hmid := hsame (h r List.mem_cons_self)
      apply (hmid s).mp
      refine (ih hr').mpr ?_ s hend
      intro r' hmem hadds
      have hadds' := (m.adds_congr i _ _ r' (m.erase_visit t r) hmid).mp hadds
      exact (hmid _).mpr (h r' (List.mem_cons_of_mem _ hmem) hadds')

/-- Once a pass adds no mark of a sort, no later pass does. -/
theorem Quiet.pass (m : Marking visit marked adds erase) {rules : List Rule} {t : SymbolTable}
    (hr : ∀ r ∈ rules, r.lhs < t.size) {i : ι} (h : Quiet visit marked i rules t) :
    Quiet visit marked i rules (Analysis.pass visit rules t).2 := by
  have hsame : ∀ s, marked i (Analysis.pass visit rules t).2 s ↔ marked i t s :=
    fun s => ⟨h s, fun hs => m.marked_pass hr hs⟩
  have hr' : ∀ r ∈ rules, r.lhs < (Analysis.pass visit rules t).2.size := by
    intro r hmem
    rw [m.size_pass]
    exact hr r hmem
  rw [m.quiet_iff hr']
  intro r hmem hadds
  have hadds' := (m.adds_congr i _ _ r (m.erase_pass rules t) hsame).mp hadds
  exact (hsame _).mpr ((m.quiet_iff hr i).mp h r hmem hadds')

/-! ## Many passes -/

/-- The table after `k` passes. -/
def after (visit : SymbolTable → Rule → Bool × SymbolTable) (rules : List Rule) (t : SymbolTable)
    (k : Nat) : SymbolTable :=
  (fun t => (Analysis.pass visit rules t).2)^[k] t

/-- One more pass comes last. -/
theorem after_succ (rules : List Rule) (t : SymbolTable) (k : Nat) :
    after visit rules t (k + 1) = (Analysis.pass visit rules (after visit rules t k)).2 :=
  Function.iterate_succ_apply' _ k t

/-- However many passes write marks only. -/
theorem erase_after (m : Marking visit marked adds erase) (rules : List Rule) (t : SymbolTable)
    (k : Nat) : erase (after visit rules t k) = erase t := by
  induction k with
  | zero => rfl
  | succ k ih => rw [after_succ, m.erase_pass, ih]

/-- After any number of passes the left-hand sides are symbols of the table. -/
theorem lhs_lt_size_after (m : Marking visit marked adds erase) {rules : List Rule}
    {t : SymbolTable} (hr : ∀ r ∈ rules, r.lhs < t.size) (k : Nat) :
    ∀ r ∈ rules, r.lhs < (after visit rules t k).size := by
  intro r hmem
  rw [← m.size_erase, m.erase_after, m.size_erase]
  exact hr r hmem

/-- No number of passes removes a mark. -/
theorem marked_after (m : Marking visit marked adds erase) {rules : List Rule} {t : SymbolTable}
    (hr : ∀ r ∈ rules, r.lhs < t.size) {i : ι} {s : SymbolId} (h : marked i t s) (k : Nat) :
    marked i (after visit rules t k) s := by
  induction k with
  | zero => exact h
  | succ k ih =>
    rw [after_succ]
    exact m.marked_pass (m.lhs_lt_size_after hr k) ih

/-- Once a pass adds no mark of a sort, none ever does. -/
theorem Quiet.after (m : Marking visit marked adds erase) {rules : List Rule} {t : SymbolTable}
    (hr : ∀ r ∈ rules, r.lhs < t.size) {i : ι} {j : Nat}
    (h : Quiet visit marked i rules (Marking.after visit rules t j)) (n : Nat) :
    Quiet visit marked i rules (Marking.after visit rules t (j + n)) := by
  induction n with
  | zero => exact h
  | succ n ih =>
    rw [Nat.add_succ, after_succ]
    exact Quiet.pass m (m.lhs_lt_size_after hr (j + n)) ih

/-- The different left-hand sides of rules. -/
def heads (rules : List Rule) : Finset SymbolId := (rules.map Rule.lhs).toFinset

open Classical in
/-- The left-hand sides that bear a mark. -/
noncomputable def bearers (marked : ι → SymbolTable → SymbolId → Prop) (i : ι) (rules : List Rule)
    (t : SymbolTable) : Finset SymbolId :=
  (heads rules).filter fun s => marked i t s

/-- There are no more bearers than left-hand sides. -/
theorem card_bearers_le (marked : ι → SymbolTable → SymbolId → Prop) (i : ι) (rules : List Rule)
    (t : SymbolTable) : (bearers marked i rules t).card ≤ (heads rules).card := by
  classical
  exact Finset.card_filter_le _ _

/-- A pass that adds a mark marks one more left-hand side. -/
theorem card_bearers_lt (m : Marking visit marked adds erase) {rules : List Rule}
    {t : SymbolTable} (hr : ∀ r ∈ rules, r.lhs < t.size) {i : ι}
    (hloud : ¬ Quiet visit marked i rules t) :
    (bearers marked i rules t).card <
      (bearers marked i rules (Analysis.pass visit rules t).2).card := by
  classical
  simp only [Quiet, not_forall] at hloud
  obtain ⟨s, hnew, hold⟩ := hloud
  -- the symbol that is new is a left-hand side
  have hlhs : s ∈ heads rules := by
    have horigin := m.marked_or_lhs_of_pass hr hnew
    exact List.mem_toFinset.mpr (horigin.resolve_left hold)
  apply Finset.card_lt_card
  rw [Finset.ssubset_iff_of_subset]
  · refine ⟨s, Finset.mem_filter.mpr ⟨hlhs, hnew⟩, ?_⟩
    intro hmem
    exact hold (Finset.mem_filter.mp hmem).2
  · intro x hx
    obtain ⟨hx, hmark⟩ := Finset.mem_filter.mp hx
    exact Finset.mem_filter.mpr ⟨hx, m.marked_pass hr hmark⟩

/-- While passes add marks of one sort, there are at least as many bearers as there were passes. -/
theorem le_card_bearers (m : Marking visit marked adds erase) {rules : List Rule}
    {t : SymbolTable} (hr : ∀ r ∈ rules, r.lhs < t.size) {i : ι} {k : Nat}
    (h : ¬ Quiet visit marked i rules (after visit rules t k)) {j : Nat} (hj : j ≤ k + 1) :
    j ≤ (bearers marked i rules (after visit rules t j)).card := by
  induction j with
  | zero => exact Nat.zero_le _
  | succ j ih =>
    have hloud : ¬ Quiet visit marked i rules (after visit rules t j) := by
      -- otherwise pass `k` would be quiet too
      intro hq
      have hk := Quiet.after m hr hq (k - j)
      rw [Nat.add_sub_cancel' (by omega)] at hk
      exact h hk
    have hgrow := m.card_bearers_lt (m.lhs_lt_size_after hr j) hloud
    have hbefore := ih (by omega)
    rw [after_succ]
    omega

/-- Each pass that adds a mark of one sort marks one more left-hand side, so there are fewer such
passes in a row than left-hand sides. -/
theorem lt_card_heads_of_not_quiet (m : Marking visit marked adds erase) {rules : List Rule}
    {t : SymbolTable} (hr : ∀ r ∈ rules, r.lhs < t.size) {i : ι} {k : Nat}
    (h : ¬ Quiet visit marked i rules (after visit rules t k)) : k < (heads rules).card :=
  calc k
    _ < k + 1 := Nat.lt_succ_self k
    _ ≤ (bearers marked i rules (after visit rules t (k + 1))).card :=
      m.le_card_bearers hr h (Nat.le_refl _)
    _ ≤ (heads rules).card := card_bearers_le marked i rules _

/-- Some pass changes nothing, and not more come before it than there are left-hand sides. -/
theorem exists_unchanged (m : Marking visit marked adds erase) {rules : List Rule}
    {t : SymbolTable} (hr : ∀ r ∈ rules, r.lhs < t.size) :
    ∃ k ≤ (heads rules).card,
      (Analysis.pass visit rules (after visit rules t k)).1 = false ∧
        ∀ j < k, (Analysis.pass visit rules (after visit rules t j)).1 = true := by
  classical
  -- there is such a pass, since a change in each would need too many left-hand sides
  have hex : ∃ k, (Analysis.pass visit rules (after visit rules t k)).1 = false := by
    refine ⟨(heads rules).card, ?_⟩
    rw [← Bool.not_eq_true, m.changed_pass_iff (m.lhs_lt_size_after hr _)]
    rintro ⟨i, s, hnew, hold⟩
    exact Nat.lt_irrefl _ (m.lt_card_heads_of_not_quiet hr fun hq => hold (hq s hnew))
  -- take the first of them
  have hbefore : ∀ j < Nat.find hex,
      (Analysis.pass visit rules (after visit rules t j)).1 = true := by
    intro j hj
    have hmin := Nat.find_min hex hj
    rwa [Bool.not_eq_false] at hmin
  refine ⟨Nat.find hex, ?_, Nat.find_spec hex, hbefore⟩
  by_contra hlt
  -- a change after as many passes as there are left-hand sides would be one too many
  have hchange := hbefore (heads rules).card (by omega)
  rw [m.changed_pass_iff (m.lhs_lt_size_after hr _)] at hchange
  obtain ⟨i, s, hnew, hold⟩ := hchange
  exact Nat.lt_irrefl _ (m.lt_card_heads_of_not_quiet hr fun hq => hold (hq s hnew))

end Marking

/-! ## Settling -/

/-- `settle` ends with the first step that reports no change, if it is given enough steps. -/
theorem settle_eq {step : SymbolTable → Bool × SymbolTable} {k n : Nat} {t : SymbolTable}
    (hbefore : ∀ j < k, (step ((fun t => (step t).2)^[j] t)).1 = true)
    (hlast : (step ((fun t => (step t).2)^[k] t)).1 = false) (hn : k < n) :
    settle step n t = (k + 1, (fun t => (step t).2)^[k + 1] t) := by
  induction k generalizing n t with
  | zero =>
    obtain ⟨n, rfl⟩ : ∃ n', n = n' + 1 := ⟨n - 1, by omega⟩
    have hlast : (step t).1 = false := hlast
    simp [settle, hlast]
  | succ k ih =>
    -- the first step reports a change, so `settle` goes on behind it
    obtain ⟨n, rfl⟩ : ∃ n', n = n' + 1 := ⟨n - 1, by omega⟩
    have hfirst : (step t).1 = true := hbefore 0 (Nat.succ_pos k)
    have hlater := ih (n := n) (t := (step t).2) (fun j hj => hbefore (j + 1) (by omega)) hlast
      (by omega)
    simp [settle, hfirst, hlater]

/-- A property that visits keep holds in the end. -/
theorem settle_induction {visit : SymbolTable → Rule → Bool × SymbolTable} {rules : List Rule}
    {P : SymbolTable → Prop} (hvisit : ∀ t, ∀ r ∈ rules, P t → P (visit t r).2) (n : Nat)
    {t : SymbolTable} (h : P t) : P (settle (pass visit rules) n t).2 := by
  -- first along one pass, visit by visit
  have hpass : ∀ (visited : List Rule) (t : SymbolTable), (∀ r ∈ visited, r ∈ rules) → P t →
      P (pass visit visited t).2 := by
    intro visited
    induction visited with
    | nil => exact fun t _ h => h
    | cons r visited ih =>
      intro t hmem h
      exact ih _ (fun r' hr' => hmem r' (List.mem_cons_of_mem _ hr'))
        (hvisit t r (hmem r List.mem_cons_self) h)
  induction n generalizing t with
  | zero => exact h
  | succ n ih =>
    have hnext : P (pass visit rules t).2 := hpass rules t (fun _ hr => hr) h
    simp only [settle]
    split
    · exact ih hnext
    · exact hnext

namespace Marking

variable {ι : Type} {visit : SymbolTable → Rule → Bool × SymbolTable}
  {marked : ι → SymbolTable → SymbolId → Prop} {adds : ι → SymbolTable → Rule → Prop}
  {erase : SymbolTable → SymbolTable}

/-- There are no more different left-hand sides than rules. -/
theorem card_heads_le (rules : List Rule) : (heads rules).card ≤ rules.length := by
  have h := List.toFinset_card_le (rules.map Rule.lhs)
  rwa [List.length_map] at h

/-- Settling stops at the first pass that changes nothing, and there is one. -/
theorem settles (m : Marking visit marked adds erase) {g : Grammar}
    (hr : ∀ r ∈ g.rules, r.lhs < g.table.size) :
    ∃ k ≤ (heads g.rules).card,
      settleRules visit g = (k + 1, { g with table := after visit g.rules g.table (k + 1) }) ∧
        (Analysis.pass visit g.rules (after visit g.rules g.table k)).1 = false := by
  obtain ⟨k, hk, hlast, hbefore⟩ := m.exists_unchanged hr
  have hcard := card_heads_le g.rules
  refine ⟨k, hk, ?_, hlast⟩
  -- the limit is one more than the number of rules, so it is not reached
  have hsettle : settle (Analysis.pass visit g.rules) (g.rules.length + 1) g.table =
      (k + 1, after visit g.rules g.table (k + 1)) :=
    settle_eq hbefore hlast (by omega)
  simp [settleRules, hsettle]

/-- Settling writes marks only. -/
theorem erase_settleRules (m : Marking visit marked adds erase) {g : Grammar}
    (hr : ∀ r ∈ g.rules, r.lhs < g.table.size) :
    erase (settleRules visit g).2.table = erase g.table := by
  obtain ⟨k, -, heq, -⟩ := m.settles hr
  rw [heq]
  exact m.erase_after g.rules g.table (k + 1)

/-- No mark is lost. -/
theorem marked_settleRules (m : Marking visit marked adds erase) {g : Grammar}
    (hr : ∀ r ∈ g.rules, r.lhs < g.table.size) {i : ι} {s : SymbolId}
    (h : marked i g.table s) : marked i (settleRules visit g).2.table s := by
  obtain ⟨k, -, heq, -⟩ := m.settles hr
  rw [heq]
  exact m.marked_after hr h (k + 1)

/-- In the end the left-hand sides of rules bear all marks that their rules ask for. -/
theorem settleRules_closed (m : Marking visit marked adds erase) {g : Grammar}
    (hr : ∀ r ∈ g.rules, r.lhs < g.table.size) {i : ι} {r : Rule} (hmem : r ∈ g.rules)
    (hadds : adds i (settleRules visit g).2.table r) :
    marked i (settleRules visit g).2.table r.lhs := by
  obtain ⟨k, -, heq, hlast⟩ := m.settles hr
  rw [heq] at hadds ⊢
  -- the last pass changed nothing, and so no pass after it would
  have hquiet : Quiet visit marked i g.rules (after visit g.rules g.table k) := by
    intro s hnew
    by_contra hold
    have hchange := (m.changed_pass_iff (m.lhs_lt_size_after hr k)).mpr ⟨i, s, hnew, hold⟩
    rw [hlast] at hchange
    cases hchange
  have hend : Quiet visit marked i g.rules (after visit g.rules g.table (k + 1)) :=
    Quiet.after m hr hquiet 1
  exact (m.quiet_iff (m.lhs_lt_size_after hr (k + 1)) i).mp hend r hmem hadds

end Marking

end YaccGrammar.Analysis
