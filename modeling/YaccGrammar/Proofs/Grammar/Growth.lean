import YaccGrammar.Proofs.Grammar.Positions

/-!
# Grammars that grow

A grammar grows by additions: a name is inserted, or a rule is added that is complete at once. What
was declared of a grammar is what is left if one forgets what an analysis finds out. Two grammars
of which the same was declared are made of the same additions, whether or not one of them has been
analysed in between, and so they stay.

## Main statements

- `calls_addition`: an addition is carried out by calls, or refused for an unknown number.
- `unanalysed_add`: what is declared after an addition depends on what was declared before it.
- `unanalysed_analyze`: an analysis declares nothing.
- `opens_grow`: additions leave all rules, kinds and flags as they are.
- `calls_growth`: grammars of which the same was declared grow together.
-/

namespace YaccGrammar

open Analysis SymbolTable

namespace SymbolTable

variable {t : SymbolTable}

/-- A test that new symbols fail is not changed by an insertion. -/
theorem any_get?_insert {p : Symbol → Bool} {n : String} (hp : p (Symbol.ofName n) = false)
    (t : SymbolTable) (s : SymbolId) : ((t.insert n).2.get? s).any p = (t.get? s).any p := by
  rw [get?, symbols_insert]
  split
  · rfl
  · rw [get?, List.getElem?_append]
    split
    -- an old symbol
    next => rfl
    -- the new symbol fails the test, and behind it there is none
    next hs =>
      rw [List.getElem?_eq_none (Nat.le_of_not_lt hs)]
      rcases Nat.eq_zero_or_pos (s - t.symbols.length) with hzero | hpos
      · simp [hzero, hp]
      · rw [List.getElem?_eq_none (Nat.succ_le_of_lt hpos)]

/-- A test that a change of a symbol does not affect. -/
theorem any_get?_modify {p : Symbol → Bool} {f : Symbol → Symbol} (hf : ∀ x, p (f x) = p x)
    (t : SymbolTable) (id s : SymbolId) : ((t.modify id f).get? s).any p = (t.get? s).any p := by
  rw [get?_modify]
  split
  · rw [Option.any_map]
    congr 1
    exact funext hf
  · rfl

end SymbolTable

namespace Grammar

/-! ## Additions -/

/-- What is added to a grammar: a symbol, or a rule that is complete at once. -/
inductive Addition where
  | symbol (n : String)
  | rule (lhs : SymbolId) (line : Nat) (rhs : List SymbolId) (code : Option CodeBlock)
      (precSymbol : Option SymbolId)
  deriving DecidableEq

namespace Addition

/-- The calls that make an addition; `k` is the number of the next rule. -/
def calls (k : RuleId) : Addition → List Call
  | symbol n => [.insert n]
  | rule lhs line rhs code precSymbol => [.addRule lhs line, .setRule k rhs code precSymbol]

/-- The number of rules that are added. -/
def ruleCount : Addition → Nat
  | symbol _ => 0
  | rule .. => 1

/-- The symbols that an addition refers to are known. -/
def InRange (size : Nat) : Addition → Prop
  | symbol _ => True
  | rule lhs _ rhs _ precSymbol =>
    lhs < size ∧ (∀ s ∈ rhs, s < size) ∧ ∀ s, precSymbol = some s → s < size

end Addition

/-- The calls that make additions one after the other. -/
def growth : RuleId → List Addition → List Call
  | _, [] => []
  | k, a :: as => a.calls k ++ growth (k + a.ruleCount) as

/-- The grammar with an addition. -/
def add (g : Grammar) : Addition → Grammar
  | .symbol n => (g.intern n).2
  | .rule lhs line rhs code precSymbol =>
    { g with
      rules := g.rules ++ [{ lhs, line, rhs, code, precSymbol
                             nextLhs := (g.table.get? lhs).bind Symbol.firstRule }]
      table := g.table.modify lhs fun x => { x with firstRule := some g.rules.length } }

/-- The grammar with additions. -/
def grow (g : Grammar) (as : List Addition) : Grammar := as.foldl add g

section Additions

variable {g : Grammar} {a : Addition}

/-- The calls of two lists are made one list after the other. -/
theorem calls_append (g : Grammar) (cs cs' : List Call) :
    g.calls (cs ++ cs') = g.calls cs >>= fun g' => g'.calls cs' :=
  List.foldlM_append ..

/-- An addition adds as many rules as it says. -/
theorem length_rules_add (g : Grammar) (a : Addition) :
    (g.add a).rules.length = g.rules.length + a.ruleCount := by
  cases a with
  | symbol n => rfl
  | rule => exact List.length_append

/-- A rule that is added and completed. -/
theorem setRule_addRule (g : Grammar) (lhs : SymbolId) (line : Nat) (rhs : List SymbolId)
    (code : Option CodeBlock) (precSymbol : Option SymbolId) :
    (g.addRule lhs line).2.setRule g.rules.length rhs code precSymbol =
      g.add (.rule lhs line rhs code precSymbol) := by
  simp [addRule, setRule, modifyRule, add, List.modify_eq_set_getElem?]

/-- On an intact grammar a call is refused only for a number that is not known. -/
theorem Intact.call_eq (hg : g.Intact) (c : Call) :
    g.call c = if c.InRange g.table.size g.rules.length then .ok (g.after c)
      else .error .outOfRange := by
  unfold call
  split
  next hc => exact hg.perform_eq_ok hc
  next => rfl

section Completed

variable (hg : g.Intact) (lhs : SymbolId) (line : Nat)

include hg

/-- A rule is added if its left-hand side is known. -/
theorem call_addRule : g.call (.addRule lhs line) =
    if lhs < g.table.size then .ok (g.addRule lhs line).2 else .error .outOfRange := by
  have hrange : Call.InRange g.table.size g.rules.length (.addRule lhs line) ↔
      lhs < g.table.size := by
    simp [Call.InRange, Call.symbols, Call.rules]
  rw [hg.call_eq]
  exact if_congr hrange rfl rfl

/-- A rule that was added is completed. -/
theorem call_setRule_addRule (hlhs : lhs < g.table.size) (rhs : List SymbolId)
    (code : Option CodeBlock) (precSymbol : Option SymbolId) :
    (g.addRule lhs line).2.call (.setRule g.rules.length rhs code precSymbol) =
      if (∀ s ∈ rhs, s < g.table.size) ∧ ∀ s, precSymbol = some s → s < g.table.size then
        .ok (g.add (.rule lhs line rhs code precSymbol))
      else .error .outOfRange := by
  have hsize : (g.addRule lhs line).2.table.size = g.table.size := size_modify ..
  have hlength : (g.addRule lhs line).2.rules.length = g.rules.length + 1 := List.length_append
  have hrange : Call.InRange g.table.size (g.rules.length + 1)
      (.setRule g.rules.length rhs code precSymbol) ↔
      (∀ s ∈ rhs, s < g.table.size) ∧ ∀ s, precSymbol = some s → s < g.table.size := by
    simp [Call.InRange, Call.symbols, Call.rules, or_imp, forall_and]
  rw [(hg.addRule hlhs line).call_eq, hsize, hlength, ← setRule_addRule]
  exact if_congr hrange rfl rfl

/-- Whatever is added keeps a grammar intact. -/
theorem Intact.add {a : Addition} (ha : a.InRange g.table.size) : (g.add a).Intact := by
  cases a with
  | symbol n => exact hg.intern n
  | rule lhs line rhs code precSymbol =>
    have hsize : (g.addRule lhs line).2.table.size = g.table.size := size_modify ..
    rw [← setRule_addRule]
    exact (hg.addRule ha.1 line).setRule _ (hsize.symm ▸ ha.2.1) code (hsize.symm ▸ ha.2.2)

end Completed

/-- An addition is carried out if it refers to known symbols, and refused otherwise. -/
theorem calls_addition (hg : g.Intact) (a : Addition) :
    a.InRange g.table.size ∧ g.calls (a.calls g.rules.length) = .ok (g.add a) ∨
      ¬ a.InRange g.table.size ∧ g.calls (a.calls g.rules.length) = .error .outOfRange := by
  cases a with
  | symbol n =>
    refine .inl ⟨trivial, ?_⟩
    simp only [Addition.calls, calls, List.foldlM_cons, List.foldlM_nil, hg.call_eq]
    rfl
  | rule lhs line rhs code precSymbol =>
    simp only [Addition.calls, calls, List.foldlM_cons, List.foldlM_nil, Addition.InRange,
      call_addRule hg]
    -- either of the two calls may be refused
    by_cases hlhs : lhs < g.table.size
    · rw [if_pos hlhs, Fault.ok_bind, call_setRule_addRule hg lhs line hlhs]
      by_cases hrest :
          (∀ s ∈ rhs, s < g.table.size) ∧ ∀ s, precSymbol = some s → s < g.table.size
      · rw [if_pos hrest]
        exact .inl ⟨⟨hlhs, hrest⟩, rfl⟩
      · rw [if_neg hrest]
        exact .inr ⟨fun h => hrest h.2, rfl⟩
    · rw [if_neg hlhs]
      exact .inr ⟨fun h => hlhs h.1, rfl⟩

end Additions

end Grammar

/-! ## What was declared -/

/-- What is known of a symbol without any analysis. -/
def Symbol.unanalysed (x : Symbol) : Symbol :=
  { x with nullable := false, firstSet := {}, index := 0 }

/-- What is known of the symbols without any analysis. -/
def SymbolTable.unanalysed (t : SymbolTable) : SymbolTable :=
  { t with symbols := t.symbols.map Symbol.unanalysed, view := [], stale := false }

/-- What was declared of a grammar. A rule says where it has its precedence from, since that may be
told before any analysis. -/
def Grammar.unanalysed (g : Grammar) : Grammar :=
  { g with table := g.table.unanalysed, rules := g.rules.map (Rule.backfilled g.table) }

/-- A precedence that a rule has been given is not replaced. -/
theorem Rule.backfilled_backfilled {t t' : SymbolTable}
    (h : ∀ s, t.hasPrecedence s = t'.hasPrecedence s) (r : Rule) :
    (r.backfilled t).backfilled t' = r.backfilled t := by
  unfold backfilled
  rw [rulePrecedence_congr h]
  unfold rulePrecedence
  cases r.precSymbol with
  | some id => rfl
  | none => simp

namespace SymbolTable

variable {t t' : SymbolTable}

/-- What was declared of a table is what was declared of its symbols. -/
@[simp] theorem get?_unanalysed (t : SymbolTable) (s : SymbolId) :
    t.unanalysed.get? s = (t.get? s).map Symbol.unanalysed :=
  List.getElem?_map ..

/-- What was declared of a table has all its names. -/
@[simp] theorem names_unanalysed (t : SymbolTable) : t.unanalysed.names = t.names := by
  simp [unanalysed, names, Function.comp_def, Symbol.unanalysed]

/-- What was declared of a table has all its precedences. -/
@[simp] theorem hasPrecedence_unanalysed (t : SymbolTable) :
    t.unanalysed.hasPrecedence = t.hasPrecedence := by
  funext s
  rw [hasPrecedence, get?_unanalysed, Option.any_map]
  rfl

/-- What is declared after an insertion depends on what was declared before it. -/
theorem unanalysed_insert (t : SymbolTable) (n : String) :
    (t.insert n).2.unanalysed = (t.unanalysed.insert n).2.unanalysed := by
  -- a known name is not entered again on either side
  by_cases hn : n ∈ t.names
  · obtain ⟨id, hid⟩ := Option.isSome_iff_exists.mp (find?_isSome_iff.mpr hn)
    obtain ⟨id', hid'⟩ :=
      Option.isSome_iff_exists.mp (find?_isSome_iff.mpr (t.names_unanalysed ▸ hn))
    rw [insert_of_find? hid, insert_of_find? hid']
    simp [unanalysed, Function.comp_def, Symbol.unanalysed]
  · rw [insert_of_notMem hn, insert_of_notMem (t.names_unanalysed ▸ hn)]
    simp [unanalysed, added, Function.comp_def, Symbol.unanalysed]

/-- The number of a rule is declared with it. -/
theorem unanalysed_modify (t : SymbolTable) (id : SymbolId) (k : RuleId) :
    (t.modify id fun x => { x with firstRule := some k }).unanalysed =
      (t.unanalysed.modify id fun x => { x with firstRule := some k }).unanalysed := by
  have hsymbols : (t.symbols.modify id fun x => { x with firstRule := some k }).map
        Symbol.unanalysed =
      ((t.symbols.map Symbol.unanalysed).modify id fun x => { x with firstRule := some k }).map
        Symbol.unanalysed := by
    apply List.ext_getElem?
    intro s
    simp only [List.getElem?_map, List.getElem?_modify]
    cases t.symbols[s]? with
    | none => rfl
    | some x =>
      by_cases hs : id = s
      · simp [hs, Symbol.unanalysed]
      · simp [hs, Symbol.unanalysed]
  simp only [unanalysed, modify, hsymbols]

/-- What is found out about symbols is not declared. -/
theorem Enriched.unanalysed_eq (h : t.Enriched t') : t'.unanalysed = t.unanalysed := by
  have hsymbols : t'.symbols.map Symbol.unanalysed = t.symbols.map Symbol.unanalysed := by
    -- the symbols are compared one by one, and all that was declared of them is the same
    apply List.ext_getElem
    · rw [List.length_map, List.length_map]
      exact h.size
    · intro s hs' hs
      obtain ⟨x, hx⟩ := exists_get?_of_lt (List.length_map Symbol.unanalysed ▸ hs :)
      obtain ⟨x', hx', hxx'⟩ := h.symbol s x hx
      rw [← Option.some_inj, ← List.getElem?_eq_getElem, ← List.getElem?_eq_getElem,
        List.getElem?_map, List.getElem?_map]
      show (t'.get? s).map _ = (t.get? s).map _
      rw [hx, hx']
      simp [Symbol.unanalysed, hxx'.name, hxx'.kind, hxx'.precedence, hxx'.assoc, hxx'.tag,
        hxx'.firstRule]
  simp [unanalysed, hsymbols, h.terminals, h.nonterminals]

end SymbolTable

namespace Grammar

variable {g g' : Grammar} {a : Addition} {s : SymbolId}

/-- A test of a symbol that does not look for its rules, and that new symbols fail. -/
theorem any_get?_add {p : Symbol → Bool} (hnew : ∀ n, p (Symbol.ofName n) = false)
    (hp : ∀ x k, p { x with firstRule := k } = p x) (g : Grammar) (a : Addition) (s : SymbolId) :
    ((g.add a).table.get? s).any p = (g.table.get? s).any p := by
  cases a with
  | symbol n => exact any_get?_insert (hnew n) g.table s
  | rule lhs => exact any_get?_modify (fun x => hp x _) g.table lhs s

/-- An addition flags no symbol. -/
theorem isNullable_add (g : Grammar) (a : Addition) (s : SymbolId) :
    (g.add a).table.isNullable s = g.table.isNullable s :=
  any_get?_add (fun _ => rfl) (fun _ _ => rfl) g a s

/-- An addition gives no symbol a precedence. -/
theorem hasPrecedence_add (g : Grammar) (a : Addition) (s : SymbolId) :
    (g.add a).table.hasPrecedence s = g.table.hasPrecedence s :=
  any_get?_add (fun _ => rfl) (fun _ _ => rfl) g a s

/-- An addition enters nothing into first-sets. -/
theorem bears_add (g : Grammar) (a : Addition) (i : Nat) (s : SymbolId) :
    Bears i (g.add a).table s ↔ Bears i g.table s := by
  cases a with
  | symbol n => exact bears_insert g.table n
  | rule lhs => exact bears_modify (fun _ => by rfl) g.table lhs

/-- What is declared after an addition depends on what was declared before it. -/
theorem unanalysed_add (g : Grammar) (a : Addition) :
    (g.add a).unanalysed = (g.unanalysed.add a).unanalysed := by
  have htable : (g.add a).table.unanalysed = (g.unanalysed.add a).table.unanalysed := by
    cases a with
    | symbol n => exact unanalysed_insert g.table n
    | rule lhs =>
      have hlength : g.unanalysed.rules.length = g.rules.length := List.length_map _
      simp only [add, hlength]
      exact unanalysed_modify g.table lhs g.rules.length
  -- precedences of symbols are those of the old grammar on both sides
  have hprecedence (s : SymbolId) :
      g.table.hasPrecedence s = (g.unanalysed.add a).table.hasPrecedence s := by
    rw [hasPrecedence_add]
    exact congrFun g.table.hasPrecedence_unanalysed.symm s
  have hlater (r : Rule) : r.backfilled (g.add a).table = r.backfilled g.table := by
    rw [Rule.backfilled, Rule.backfilled, rulePrecedence_congr (hasPrecedence_add g a)]
  have hold : g.rules.map (Rule.backfilled (g.add a).table) =
      (g.rules.map (Rule.backfilled g.table)).map (Rule.backfilled (g.unanalysed.add a).table) := by
    rw [List.map_map]
    refine List.map_congr_left fun r _ => ?_
    rw [Function.comp_apply, Rule.backfilled_backfilled hprecedence, hlater]
  have hrules : (g.add a).rules.map (Rule.backfilled (g.add a).table) =
      (g.unanalysed.add a).rules.map (Rule.backfilled (g.unanalysed.add a).table) := by
    cases a with
    | symbol n => exact hold
    | rule lhs line rhs code precSymbol =>
      -- the new rule is linked to the rule that was the first one before
      have hnext : (g.unanalysed.table.get? lhs).bind Symbol.firstRule =
          (g.table.get? lhs).bind Symbol.firstRule := by
        show (g.table.unanalysed.get? lhs).bind _ = _
        rw [get?_unanalysed, Option.bind_map]
        rfl
      have hnew (r : Rule) : r.backfilled (g.add (.rule lhs line rhs code precSymbol)).table =
          r.backfilled (g.unanalysed.add (.rule lhs line rhs code precSymbol)).table := by
        rw [hlater, Rule.backfilled, Rule.backfilled, rulePrecedence_congr hprecedence]
      show (g.rules ++ [_]).map _ = (g.rules.map (Rule.backfilled g.table) ++ [_]).map _
      rw [List.map_append, List.map_append, hold, List.map_singleton, List.map_singleton, hnew,
        hnext]
  calc (g.add a).unanalysed
    _ = { g.unanalysed.add a with
          table := (g.add a).table.unanalysed
          rules := (g.add a).rules.map (Rule.backfilled (g.add a).table) } := by
      cases a <;> rfl
    _ = (g.unanalysed.add a).unanalysed := by
      rw [htable, hrules]
      rfl

/-- An analysis declares nothing. -/
theorem unanalysed_analyze (g : Grammar) : g.analyze.unanalysed = g.unanalysed := by
  have htable : g.analyze.table.unanalysed = g.table.unanalysed := g.enriched_analyze.unanalysed_eq
  have hrules : g.analyze.rules.map (Rule.backfilled g.analyze.table) =
      g.rules.map (Rule.backfilled g.table) := by
    -- a second analysis finds no more precedences
    have h := congrArg rules g.backfillPrecedence_analyze
    refine (show _ = g.analyze.rules from h).trans ?_
    apply List.ext_getElem?
    intro k
    rw [List.getElem?_map]
    exact g.rule?_analyze k
  simp only [unanalysed, htable, hrules]
  rfl

/-! ## What additions keep -/

/-- An addition leaves rules, kinds and flags as they are. -/
theorem opens_add (g : Grammar) (a : Addition) : Opens g (g.add a) where
  rule r hr := by
    cases a with
    -- no rule is taken away
    | symbol n => exact ⟨r, hr, rfl, rfl⟩
    | rule => exact ⟨r, List.mem_append_left _ hr, rfl, rfl⟩
  kind s x hx := by
    cases a with
    | symbol n => exact ⟨x, get?_insert_of_get? hx n, rfl, id⟩
    | rule lhs =>
      show ∃ x', (g.table.modify lhs _).get? s = some x' ∧ _
      rw [get?_modify, hx]
      split
      · exact ⟨_, rfl, rfl, id⟩
      · exact ⟨x, rfl, rfl, id⟩

/-- Additions leave rules, kinds and flags as they are. -/
theorem opens_grow (g : Grammar) (as : List Addition) : Opens g (g.grow as) := by
  induction as generalizing g with
  | nil => exact .refl g
  | cons a as ih => exact (opens_add g a).trans (ih (g.add a))

/-- Additions enter nothing into first-sets. -/
theorem bears_grow (g : Grammar) (as : List Addition) (i : Nat) (s : SymbolId) :
    Bears i (g.grow as).table s ↔ Bears i g.table s := by
  induction as generalizing g with
  | nil => exact Iff.rfl
  | cons a as ih => exact (ih (g.add a)).trans (bears_add g a i s)

/-! ## Growing together -/

/-- Sorting makes no difference to what is derived. -/
theorem Intact.derives_sorted_iff (hg : g.Intact) {u v : List SymbolId} :
    g.sorted.Derives u v ↔ g.Derives u v := by
  have hflags (s : SymbolId) : g.sorted.table.isNullable s = g.table.isNullable s := by
    show (g.table.sort.get? s).any _ = _
    rw [get?_sort_eq hg.consistent, Option.any_map]
    rfl
  constructor
  · refine Derives.mono fun s rhs hprod => ?_
    cases hprod with
    | rule r hr => exact .rule r hr
    | flagged s hflag => exact .flagged s (hflags s ▸ hflag)
  · refine Derives.mono fun s rhs hprod => ?_
    cases hprod with
    | rule r hr => exact .rule (g := g.sorted) r hr
    | flagged s hflag => exact .flagged s ((hflags s).trans hflag)

/-- The grammar `g'` was declared like `g`. It may recall which symbols of `g` vanish, without their
rules being looked at. -/
structure Recalls (g g' : Grammar) : Prop where
  unanalysed : g'.unanalysed = g.unanalysed
  flagged : ∀ s, g.table.isNullable s = true → g'.table.isNullable s = true
  vanishes : ∀ s, g'.table.isNullable s = true → g.Derives [s] []

/-- A symbol is flagged by an analysis if it vanishes. -/
theorem Intact.isNullable_analyze_iff (hg : g.Intact) :
    g.analyze.table.isNullable s = true ↔ g.Derives [s] [] := by
  rw [hg.isNullable_analyze, ← hg.derives_sorted_iff]
  exact isNullable_computeNullable_iff hg.sorted.sound.inRange s

/-- An analysed grammar was declared like the one before it, and recalls its nullable symbols. -/
theorem Intact.recalls_analyze (hg : g.Intact) : g.Recalls g.analyze where
  unanalysed := g.unanalysed_analyze
  flagged s hflag :=
    hg.isNullable_analyze_iff.mpr (.single (rewrites_of_production (.flagged s hflag)))
  vanishes _ := hg.isNullable_analyze_iff.mp

namespace Recalls

/-- A grammar that was declared like another one has its names. -/
theorem names (h : g.Recalls g') : g'.table.names = g.table.names := by
  have htables : g'.table.unanalysed = g.table.unanalysed := congrArg table h.unanalysed
  rw [← names_unanalysed, htables, names_unanalysed]

/-- A grammar that was declared like another one has as many symbols. -/
theorem size (h : g.Recalls g') : g'.table.size = g.table.size := by
  rw [← length_names, h.names, length_names]

/-- A grammar that was declared like another one has as many rules. -/
theorem length_rules (h : g.Recalls g') : g'.rules.length = g.rules.length := by
  have hrules := congrArg (fun g : Grammar => g.rules.length) h.unanalysed
  simpa [Grammar.unanalysed] using hrules

/-- What was found out before an addition holds after it. -/
theorem add (h : g.Recalls g') (a : Addition) : (g.add a).Recalls (g'.add a) where
  unanalysed := by rw [unanalysed_add, h.unanalysed, ← unanalysed_add]
  flagged s := by
    rw [isNullable_add, isNullable_add]
    exact h.flagged s
  vanishes s hflag := by
    rw [isNullable_add] at hflag
    exact (opens_add g a).derives (h.vanishes s hflag)

/-- Grammars of which one recalls the other grow together. -/
theorem calls_growth (h : g.Recalls g') (hg : g.Intact) (hg' : g'.Intact) (as : List Addition) :
    g.calls (growth g.rules.length as) = .ok (g.grow as) ∧
        g'.calls (growth g.rules.length as) = .ok (g'.grow as) ∧
        (g.grow as).Intact ∧ (g'.grow as).Intact ∧ (g.grow as).Recalls (g'.grow as) ∨
      g.calls (growth g.rules.length as) = .error .outOfRange ∧
        g'.calls (growth g.rules.length as) = .error .outOfRange := by
  induction as generalizing g g' with
  | nil => exact .inl ⟨rfl, rfl, hg, hg', h⟩
  | cons a as ih =>
    have hstep := calls_addition hg a
    have hstep' := calls_addition hg' a
    -- both have the same numbers, so they accept the same additions
    rw [h.length_rules, h.size] at hstep'
    simp only [growth, calls_append]
    rcases hstep with ⟨hrange, hok⟩ | ⟨hrange, herror⟩
    · obtain ⟨-, hok'⟩ := hstep'.resolve_right fun hrefused => hrefused.1 hrange
      rw [hok, hok', Fault.ok_bind, Fault.ok_bind, ← length_rules_add]
      exact ih (h.add a) (hg.add hrange) (hg'.add (h.size.symm ▸ hrange))
    · -- a refusal of one is a refusal of the other
      obtain ⟨-, herror'⟩ := hstep'.resolve_left fun hdone => hrange hdone.1
      rw [herror, herror']
      exact .inr ⟨rfl, rfl⟩

end Recalls

end Grammar

end YaccGrammar
