import YaccGrammar.Proofs.Grammar.Intact
import YaccGrammar.Proofs.Reading.Meaning

/-!
# The verifier reports the undefined symbols

What the check of a whole grammar reports, told by the rules alone: which symbols occur on
right-hand sides, in which order, and which are left-hand sides. The check itself asks for the head
of a chain, and keeps the first finding for every symbol.

## Main statements

- `isUndefined_iff`: what the head of a chain tells about a symbol.
- `firstUses_firstPerKey`: the findings on right-hand sides.
- `verify_reports_undefined`: all findings.
-/

namespace YaccGrammar.Grammar

/-! ## Uses -/

/-- The uses of symbols on right-hand sides, as they are written, each with the line of its rule. -/
def uses (g : Grammar) : List (SymbolId × Nat) :=
  g.rules.flatMap fun r => r.rhs.map fun id => (id, r.line)

variable {g : Grammar}

/-- The symbols that are used are those of the right-hand sides, in order. -/
theorem keys_uses (g : Grammar) : g.uses.map Prod.fst = g.rules.flatMap Rule.rhs := by
  simp [uses, List.map_flatMap, Function.comp_def]

/-- The undefined uses are the uses of undefined symbols. -/
theorem undefinedUses_eq (g : Grammar) :
    g.undefinedUses = g.uses.filter fun p => g.isUndefined p.1 := by
  rw [undefinedUses, uses, List.filter_flatMap]
  congr 1
  funext r
  rw [List.filter_map]
  rfl

/-- The first use of a symbol is in the first rule that uses it. -/
theorem rule_of_find?_uses {s : SymbolId} {p : SymbolId × Nat}
    (hp : g.uses.find? (fun q => q.1 = s) = some p) :
    ∃ before r after, g.rules = before ++ r :: after ∧ s ∈ r.rhs ∧ p.2 = r.line ∧
      ∀ r' ∈ before, s ∉ r'.rhs := by
  rw [uses, List.find?_flatMap, List.findSome?_eq_some_iff] at hp
  obtain ⟨before, r, after, hrules, hfound, hbefore⟩ := hp
  -- the first use is in the first rule that has one
  refine ⟨before, r, after, hrules, ?_, ?_, fun r' hr' hs => ?_⟩
  · obtain ⟨id, hid, rfl⟩ := List.mem_map.mp (List.mem_of_find?_eq_some hfound)
    have heq := List.find?_some hfound
    exact of_decide_eq_true heq ▸ hid
  · obtain ⟨id, -, rfl⟩ := List.mem_map.mp (List.mem_of_find?_eq_some hfound)
    rfl
  · have hnone := List.find?_eq_none.mp (hbefore r' hr') (s, r'.line) (List.mem_map_of_mem hs)
    simp at hnone

/-! ## Undefined symbols -/

/-- A symbol occurs on a right-hand side. -/
def IsUsed (g : Grammar) (s : SymbolId) : Prop := ∃ r ∈ g.rules, s ∈ r.rhs

/-- A symbol is the left-hand side of a rule. -/
def HasRule (g : Grammar) (s : SymbolId) : Prop := ∃ r ∈ g.rules, r.lhs = s

/-- In chains that are in order, a symbol has rules exactly if it is a left-hand side. -/
theorem hasRules_iff_hasRule (hg : g.Chained) (s : SymbolId) :
    g.hasRules s = true ↔ g.HasRule s := by
  rw [hg.hasRules_iff, List.mem_map, HasRule]

/-- A symbol is reported as undefined if it is a nonterminal without a rule. -/
theorem isUndefined_iff (hg : g.Chained) {s : SymbolId} (hs : s < g.table.size) :
    g.isUndefined s = true ↔ g.table.IsNonterminal s ∧ ¬ g.HasRule s := by
  obtain ⟨x, hx⟩ := SymbolTable.exists_get?_of_lt hs
  have hkind : x.isTerminal = false ↔ x.kind = .nonterminal := by
    cases h : x.kind <;> simp [Symbol.isTerminal, h]
  rw [isUndefined, Bool.and_eq_true, Bool.not_eq_true', Bool.not_eq_true', ← Bool.not_eq_true,
    ← Bool.not_eq_true, hasRules_iff_hasRule hg, SymbolTable.IsNonterminal]
  simp [hx, hkind]

/-- The nonterminals that are used and have no rule, once each, in the order of their first uses and
with the line of the rule of that use. -/
structure FirstUses (g : Grammar) (found : List (SymbolId × Nat)) : Prop where
  mem (s : SymbolId) :
    s ∈ found.map Prod.fst ↔ g.table.IsNonterminal s ∧ g.IsUsed s ∧ ¬ g.HasRule s
  nodup : (found.map Prod.fst).Nodup
  ordered : found.Pairwise fun p q =>
    (g.rules.flatMap Rule.rhs).idxOf p.1 < (g.rules.flatMap Rule.rhs).idxOf q.1
  line (p : SymbolId × Nat) (hp : p ∈ found) :
    ∃ before r after, g.rules = before ++ r :: after ∧ p.1 ∈ r.rhs ∧ p.2 = r.line ∧
      ∀ r' ∈ before, p.1 ∉ r'.rhs

/-- What is kept of the undefined uses is the first one of every undefined symbol. -/
theorem firstUses_firstPerKey (hg : Guarded.Sound g) :
    g.FirstUses (firstPerKey [] g.undefinedUses) := by
  -- whether a use is undefined depends on its symbol only, so it can be asked afterwards
  have hfound : firstPerKey [] g.undefinedUses =
      (firstPerKey [] g.uses).filter fun p => g.isUndefined p.1 := by
    rw [undefinedUses_eq]
    exact firstPerKey_filter g.isUndefined (fun _ _ => Iff.rfl) g.uses
  constructor
  case mem =>
    intro s
    have hkeys : s ∈ (firstPerKey [] g.undefinedUses).map Prod.fst ↔
        g.IsUsed s ∧ g.isUndefined s = true := by
      rw [mem_keys_firstPerKey, and_iff_right List.not_mem_nil, undefinedUses_eq, IsUsed,
        ← List.mem_flatMap, ← keys_uses, ← List.mem_filter, List.filter_map]
      rfl
    rw [hkeys]
    -- what is used is a symbol
    have hlt (h : g.IsUsed s) : s < g.table.size := by
      obtain ⟨r, hr, hs⟩ := h
      exact (hg.inRange r hr).2 s hs
    rw [and_left_comm]
    exact and_congr_right fun hused => isUndefined_iff hg.chained (hlt hused)
  case nodup => exact nodup_keys_firstPerKey [] g.undefinedUses
  case ordered =>
    rw [hfound, ← keys_uses]
    exact (pairwise_firstPerKey [] g.uses).filter _
  case line =>
    intro p hp
    rw [hfound] at hp
    exact rule_of_find?_uses (find?_of_mem_firstPerKey (List.mem_filter.mp hp).1)

/-- The start symbol, if it has no rule. -/
theorem undefinedStart_eq (hg : g.Chained) (file : String) :
    ∃ missing : Option SymbolId,
      g.undefinedStart file = missing.map (fun s => ⟨⟨file, 0⟩, .undefinedStart (g.name s)⟩) ∧
      ∀ s, missing = some s ↔ g.start? = some s ∧ ¬ g.HasRule s := by
  -- the start symbol is missing if it fails the test for rules
  refine ⟨g.start?.filter fun s => !g.hasRules s, ?_, fun s => ?_⟩
  · unfold undefinedStart
    cases g.start? with
    | none => rfl
    | some s => cases h : g.hasRules s <;> simp [Option.filter, h]
  · simp [Option.filter_eq_some_iff, ← hasRules_iff_hasRule hg]

/-- Nothing is found on right-hand sides exactly if all nonterminals there have rules. -/
theorem FirstUses.eq_nil_iff {found : List (SymbolId × Nat)} (h : g.FirstUses found) :
    found = [] ↔ ∀ s, g.table.IsNonterminal s → g.IsUsed s → g.HasRule s := by
  rw [← List.map_eq_nil_iff (f := Prod.fst), List.eq_nil_iff_forall_not_mem]
  refine forall_congr' fun s => ?_
  rw [h.mem, not_and, not_and, not_not]

/-! ## The verifier -/

/-- The verifier reports exactly the undefined symbols. It meets no fault in a grammar all of whose
numbers are good and whose rules are chained. It reports each nonterminal that is used and has no
rule, once, in the order of first uses and on the line of the rule of the first use; and behind
these, on line 0, the start symbol if it has no rule. So nothing is reported exactly if all
nonterminals that are used and the start symbol have rules. -/
theorem verify_reports_undefined (g : Grammar) (hg : Guarded.Sound g) (file : String) :
    Guarded.verify g file = .ok (g.verify file) ∧
      (∃ (found : List (SymbolId × Nat)) (missing : Option SymbolId),
        g.verify file =
          found.map (fun p => ⟨⟨file, p.2⟩, .undefinedNonterminal (g.name p.1)⟩) ++
            (missing.map fun s => ⟨⟨file, 0⟩, .undefinedStart (g.name s)⟩).toList ∧
        g.FirstUses found ∧ ∀ s, missing = some s ↔ g.start? = some s ∧ ¬ g.HasRule s) ∧
      (g.verify file = [] ↔
        (∀ s, g.table.IsNonterminal s → g.IsUsed s → g.HasRule s) ∧
          ∀ s, g.start? = some s → g.HasRule s) := by
  obtain ⟨missing, hstart, hmissing⟩ := undefinedStart_eq hg.chained file
  have hfound := firstUses_firstPerKey hg
  have hverify : g.verify file =
      (firstPerKey [] g.undefinedUses).map
          (fun p => ⟨⟨file, p.2⟩, .undefinedNonterminal (g.name p.1)⟩) ++
        (missing.map fun s => ⟨⟨file, 0⟩, .undefinedStart (g.name s)⟩).toList := by
    rw [verify, hstart]
    rfl
  refine ⟨hg.verify_eq_ok file, ⟨_, missing, hverify, hfound, hmissing⟩, ?_⟩
  -- no start symbol is missing exactly if there is none without rules
  have hnone : missing = none ↔ ∀ s, g.start? = some s → g.HasRule s := by
    rw [Option.eq_none_iff_forall_ne_some]
    refine forall_congr' fun s => ?_
    rw [Ne, hmissing, not_and, not_not]
  rw [hverify, List.append_eq_nil_iff, List.map_eq_nil_iff, hfound.eq_nil_iff,
    Option.toList_eq_nil_iff, Option.map_eq_none_iff, hnone]

/-- Two nonterminals without rules, of which the second is used first and the first is declared the
start symbol. -/
theorem verify_reports_undefined_sums : ∃ g : Grammar, Guarded.Sound g ∧
    (Guarded.verify g "g.y" = .ok (g.verify "g.y") ∧
      (∃ (found : List (SymbolId × Nat)) (missing : Option SymbolId),
        g.verify "g.y" =
          found.map (fun p => ⟨⟨"g.y", p.2⟩, .undefinedNonterminal (g.name p.1)⟩) ++
            (missing.map fun s => ⟨⟨"g.y", 0⟩, .undefinedStart (g.name s)⟩).toList ∧
        g.FirstUses found ∧ ∀ s, missing = some s ↔ g.start? = some s ∧ ¬ g.HasRule s) ∧
      (g.verify "g.y" = [] ↔
        (∀ s, g.table.IsNonterminal s → g.IsUsed s → g.HasRule s) ∧
          ∀ s, g.start? = some s → g.HasRule s)) ∧
    g.verify "g.y" = [⟨⟨"g.y", 3⟩, .undefinedNonterminal "factor"⟩,
      ⟨⟨"g.y", 4⟩, .undefinedNonterminal "term"⟩, ⟨⟨"g.y", 0⟩, .undefinedStart "term"⟩] := by
  -- the symbols are numbered in this order
  have hsymbols := (((intact_empty.intern "sum").intern "PLUS").intern "term").intern "factor"
  have hsum : 0 < 4 := by decide
  have hrules := (hsymbols.addRule hsum 3).addRule hsum 4
  have hfirst : ∀ s ∈ [3, 1, 0], s < 4 := by decide
  have hsecond : ∀ s ∈ [2, 1, 3], s < 4 := by decide
  have hprec : ∀ s, none = some s → s < 4 := nofun
  have hwritten := (hrules.setRule 0 hfirst none hprec).setRule 1 hsecond none hprec
  have hstart : ∀ s, some 2 = some s → s < 4 := by decide
  have hg := hwritten.setCodes hstart none none none
  exact ⟨_, hg.sound, verify_reports_undefined _ hg.sound "g.y", by decide⟩

end YaccGrammar.Grammar
