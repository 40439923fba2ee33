import YaccGrammar.Proofs.Symbol.Intern
import YaccGrammar.Proofs.Syntax.Acceptance

/-!
# Divided rules

The alternatives of a left-hand side may stand in one rule or in several. A rule is divided at a
bar: in its place comes a semicolon, and the left-hand side is written once more in front of the
alternatives behind it.

## Main statements

- `Divides.mentions`: nothing else is mentioned first by divided rules.
- `Divides.alternatives`: their alternatives stay as they are.
- `Divides.rulesKnow`: the symbols behind `%prec` stay known.
-/

namespace YaccGrammar

open Reading

/-- Some bars of the first rules are semicolons in the second ones, each with the left-hand side and
a colon behind it. -/
inductive Divides : List RuleGroup → List RuleGroup → Prop
  | nil : Divides [] []
  /-- No bar of the rule is replaced any more. -/
  | keep (r : RuleGroup) {rs rs' : List RuleGroup} (h : Divides rs rs') :
      Divides (r :: rs) (r :: rs')
  /-- The first bar of the rule that is replaced stands behind the first alternatives. -/
  | divide {lhs : String} {bs bs' : List Branch} {rs rs' : List RuleGroup} (hbs : bs ≠ [])
      (hbs' : bs' ≠ []) (h : Divides (⟨lhs, bs'⟩ :: rs) rs') :
      Divides (⟨lhs, bs ++ bs'⟩ :: rs) (⟨lhs, bs⟩ :: rs')

/-! ## First occurrences -/

/-- What occurs in front of it is left out. -/
theorem eraseDups_append_of_subset {l m : List String} (h : m ⊆ l) (r : List String) :
    (l ++ (m ++ r)).eraseDups = (l ++ r).eraseDups := by
  -- what occurs in front is removed, so nothing of the middle is left
  have hnone : m.removeAll l = [] := by
    rw [List.removeAll, List.filter_eq_nil_iff]
    intro n hn
    simp [h hn]
  have hrest : (m ++ r).removeAll l = r.removeAll l := by
    rw [List.removeAll, List.filter_append, ← List.removeAll, hnone, List.nil_append]
    rfl
  rw [List.eraseDups_append, List.eraseDups_append, hrest]

/-! ## Marks -/

/-- Marks aside, the members are those of the list. -/
theorem map_fst_marked {α : Type} (l : List α) : (marked l).map Prod.fst = l := by
  fun_induction marked l with
  | case1 => rfl
  | case2 a => rfl
  | case3 a b l ih => rw [List.map_cons, ih]

/-- The alternatives of a rule, whichever marks close them. -/
theorem RuleGroup.map_fst_closings (r : RuleGroup) :
    r.closings.map Prod.fst = r.branches.map (Branch.alternative r.lhs) := by
  rw [closings, List.map_map]
  calc
    _ = ((marked r.branches).map Prod.fst).map (Branch.alternative r.lhs) := by
      rw [List.map_map]
      rfl
    _ = _ := by rw [map_fst_marked]

/-- The alternatives that are kept, of some that are closed by marks. -/
def keptOf (closings : List (Alternative × Bool)) : List Alternative :=
  (closings.filter fun c => !(c.1.isBlank && c.2)).map Prod.fst

/-- What is kept of two lists is kept of each. -/
theorem keptOf_append (l m : List (Alternative × Bool)) :
    keptOf (l ++ m) = keptOf l ++ keptOf m := by
  rw [keptOf, List.filter_append, List.map_append]
  rfl

/-- What is kept of a rule has its left-hand side. -/
theorem lhs_of_mem_keptOf {r : RuleGroup} {a : Alternative} (ha : a ∈ keptOf r.closings) :
    a.lhs = r.lhs := by
  obtain ⟨c, hc, rfl⟩ := List.mem_map.mp ha
  obtain ⟨p, -, rfl⟩ := List.mem_map.mp (List.mem_filter.mp hc).1
  rfl

/-- The last alternative of a rule is kept. -/
theorem keptOf_closings_ne_nil {r : RuleGroup} (hr : r.branches ≠ []) : keptOf r.closings ≠ [] := by
  obtain ⟨b, hb⟩ := exists_mem_marked hr
  have hmem : (b.alternative r.lhs, false) ∈ r.closings := List.mem_map_of_mem hb
  exact List.ne_nil_of_mem (List.mem_map_of_mem (List.mem_filter.mpr ⟨hmem, by simp⟩))

/-- The left-hand sides of the alternatives that are kept are those of the rules. -/
theorem eraseDups_lhs_keptOf {rs : List RuleGroup} (hrs : ∀ r ∈ rs, r.branches ≠ [])
    (l : List String) :
    (l ++ (keptOf (rs.flatMap RuleGroup.closings)).map Alternative.lhs).eraseDups =
      (l ++ rs.map RuleGroup.lhs).eraseDups := by
  induction rs generalizing l with
  | nil => rfl
  | cons r rs ih =>
    rw [List.forall_mem_cons] at hrs
    obtain ⟨a, as, has⟩ := List.exists_cons_of_ne_nil (keptOf_closings_ne_nil hrs.1)
    have hlhs : ∀ b ∈ a :: as, b.lhs = r.lhs := fun b hb => lhs_of_mem_keptOf (has ▸ hb)
    rw [List.forall_mem_cons] at hlhs
    -- behind the first kept alternative of the rule, the others say nothing new
    have hothers : as.map Alternative.lhs ⊆ l ++ [r.lhs] := by
      intro n hn
      obtain ⟨b, hb, rfl⟩ := List.mem_map.mp hn
      rw [hlhs.2 b hb]
      exact List.mem_append_right _ List.mem_cons_self
    calc
      _ = ((l ++ [r.lhs]) ++ (as.map Alternative.lhs ++
          (keptOf (rs.flatMap RuleGroup.closings)).map Alternative.lhs)).eraseDups := by
        rw [List.flatMap_cons, keptOf_append, has, List.map_append, List.map_cons, hlhs.1,
          List.append_assoc]
        rfl
      _ = ((l ++ [r.lhs]) ++ rs.map RuleGroup.lhs).eraseDups := by
        rw [eraseDups_append_of_subset hothers, ih hrs.2]
      _ = _ := by rw [List.append_assoc, List.map_cons]; rfl

/-! ## Known symbols -/

/-- More may be known behind more. -/
theorem append_subset {l m : List String} (h : l ⊆ m) (r : List String) : l ++ r ⊆ m ++ r := by
  intro n hn
  exact List.mem_append.mpr ((List.mem_append.mp hn).imp_left (h ·))

/-- Alternatives whose symbols are known know them as well when more is known. -/
theorem branchesKnow_mono {known known' : List String} (h : known ⊆ known') {bs : List Branch}
    (hbs : branchesKnow known bs = true) : branchesKnow known' bs = true := by
  induction bs generalizing known known' with
  | nil => rfl
  | cons b bs ih =>
    rw [branchesKnow, Bool.and_eq_true] at hbs ⊢
    have hmore : known ++ b.symbols ⊆ known' ++ b.symbols := append_subset h _
    refine ⟨?_, ih hmore hbs.2⟩
    -- without `%prec` nothing has to be known
    cases hprec : b.prec with
    | none => rfl
    | some p =>
      have hp := hbs.1
      rw [hprec] at hp
      exact List.contains_iff_mem.mpr (hmore (List.contains_iff_mem.mp hp))

/-- Rules whose symbols are known know them as well when more is known. -/
theorem rulesKnow_mono {known known' : List String} (h : known ⊆ known') {rs : List RuleGroup}
    (hrs : rulesKnow known rs = true) : rulesKnow known' rs = true := by
  induction rs generalizing known known' with
  | nil => rfl
  | cons r rs ih =>
    rw [rulesKnow, Bool.and_eq_true] at hrs ⊢
    exact ⟨branchesKnow_mono (append_subset h _) hrs.1,
      ih (append_subset h _) hrs.2⟩

/-! ## Divided rules -/

namespace Divides

variable {rs rs' : List RuleGroup}

/-- Where a left-hand side is written once more, it is mentioned already. -/
theorem mentions (h : Divides rs rs') (l : List String) :
    (l ++ rs'.flatMap RuleGroup.mentions).eraseDups =
      (l ++ rs.flatMap RuleGroup.mentions).eraseDups := by
  induction h generalizing l with
  | nil => rfl
  | keep r _ ih =>
    rw [List.flatMap_cons, List.flatMap_cons, ← List.append_assoc, ih, List.append_assoc]
  | @divide lhs bs bs' rs rs' _ _ _ ih =>
    let before : List String := l ++ (⟨lhs, bs⟩ : RuleGroup).mentions
    let after : List String := bs'.flatMap Branch.symbols ++ rs.flatMap RuleGroup.mentions
    have hlhs : [lhs] ⊆ before := by
      rw [List.cons_subset]
      exact ⟨List.mem_append_right _ List.mem_cons_self, List.nil_subset _⟩
    -- the left-hand side that is written once more is the one that stood in front already
    calc
      _ = (before ++ ([lhs] ++ after)).eraseDups := by
        rw [List.flatMap_cons, ← List.append_assoc, ih]
        rfl
      _ = (before ++ after).eraseDups := eraseDups_append_of_subset hlhs _
      _ = _ := by simp [before, after, RuleGroup.mentions]

/-- Divided rules have the same alternatives, in the same order. -/
theorem alternatives (h : Divides rs rs') :
    (rs'.flatMap RuleGroup.closings).map Prod.fst =
      (rs.flatMap RuleGroup.closings).map Prod.fst := by
  induction h with
  | nil => rfl
  | keep r _ ih => rw [List.flatMap_cons, List.flatMap_cons, List.map_append, List.map_append, ih]
  -- the first alternatives and those behind the bar make up those of the whole rule
  | divide _ _ _ ih =>
    rw [List.flatMap_cons, List.map_append, ih, List.flatMap_cons, List.map_append,
      List.flatMap_cons, List.map_append, RuleGroup.map_fst_closings, RuleGroup.map_fst_closings,
      RuleGroup.map_fst_closings, List.map_append, List.append_assoc]

/-- Divided rules have the same left-hand sides, in the order of their first rules. -/
theorem lhs (h : Divides rs rs') (l : List String) :
    (l ++ rs'.map RuleGroup.lhs).eraseDups = (l ++ rs.map RuleGroup.lhs).eraseDups := by
  induction h generalizing l with
  | nil => rfl
  | keep r _ ih =>
    rw [List.map_cons, List.map_cons, List.append_cons, ih, ← List.append_cons]
  | @divide lhs bs bs' rs rs' _ _ _ ih =>
    have hlhs : [lhs] ⊆ l ++ [lhs] := List.subset_append_right _ _
    rw [List.map_cons, List.append_cons, ih, List.map_cons, List.map_cons]
    exact (eraseDups_append_of_subset hlhs _).trans (by rw [List.append_assoc]; rfl)

/-- What is known in front of an alternative stays known. -/
theorem rulesKnow (h : Divides rs rs') {known : List String}
    (hrs : YaccGrammar.rulesKnow known rs = true) : YaccGrammar.rulesKnow known rs' = true := by
  induction h generalizing known with
  | nil => rfl
  | keep r _ ih =>
    rw [YaccGrammar.rulesKnow, Bool.and_eq_true] at hrs ⊢
    exact ⟨hrs.1, ih hrs.2⟩
  | @divide lhs bs bs' rs rs' _ _ _ ih =>
    rw [YaccGrammar.rulesKnow, Bool.and_eq_true, branchesKnow_append, Bool.and_eq_true] at hrs
    obtain ⟨⟨hbs, hbs'⟩, hrest⟩ := hrs
    rw [YaccGrammar.rulesKnow, Bool.and_eq_true]
    refine ⟨hbs, ih ?_⟩
    -- behind the first alternatives their symbols are known, and the left-hand side still is
    rw [YaccGrammar.rulesKnow, Bool.and_eq_true]
    refine ⟨branchesKnow_mono (fun n hn => ?_) hbs', rulesKnow_mono (fun n hn => ?_) hrest⟩
    · simp only [RuleGroup.mentions, List.mem_append, List.mem_cons] at hn ⊢
      tauto
    · simp only [RuleGroup.mentions, List.flatMap_append, List.mem_append, List.mem_cons] at hn ⊢
      tauto

end Divides

end YaccGrammar
