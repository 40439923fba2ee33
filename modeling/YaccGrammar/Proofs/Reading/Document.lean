import YaccGrammar.Proofs.Analysis.FirstNames
import YaccGrammar.Proofs.Reading.Alternatives
import YaccGrammar.Proofs.Reading.Run

/-!
# Documents

A grammar that was read from a text agrees with a history, so it is fresh, and the analysis finds
out about it what it derives.

## Main statements

- `exists_agrees_of_parse`: the grammar of a document agrees with a history.
- `firstSetNames_of_parse`: the first-sets of a grammar that was read from a text.
-/

namespace YaccGrammar.Reading

/-! ## Grammars that agree with a history -/

/-- What is kept or still open was opened once. -/
theorem History.mem_alternatives {h : History} {a : Alternative}
    (ha : a ∈ h.kept ++ h.current.toList) : a ∈ h.alternatives := by
  rcases List.mem_append.mp ha with hkept | hcurrent
  · obtain ⟨c, hc, rfl⟩ := List.mem_map.mp hkept
    exact List.mem_append_left _ (List.mem_map_of_mem (List.mem_filter.mp hc).1)
  · exact List.mem_append_right _ hcurrent

namespace Agrees

variable {h : History} {s : State}

/-- The number of a name is that of a symbol. -/
theorem lt_size_of_numbers (hs : Agrees h s) {id : SymbolId} {n : String}
    (hid : Numbers h.names id n) : id < s.grammar.table.size := by
  rw [← SymbolTable.length_names, hs.names]
  exact (List.getElem?_eq_some_iff.mp hid).1

/-- A symbol with the name of a nonterminal is one. -/
theorem isTerminal_eq_false (hs : Agrees h s) {id : SymbolId} {x : Symbol}
    (hx : s.grammar.table.get? id = some x) (hname : Name.isNonterminal x.name = true) :
    x.isTerminal = false := by
  have hkind : x.kind = .ofName x.name := congrArg Symbol.kind (hs.symbol_of_get? hx)
  rw [Symbol.isTerminal, hkind, SymbolKind.ofName_of_isNonterminal hname]
  rfl

/-- Only what was accepted as a left-hand side has rules or is flagged. -/
theorem fresh (hs : Agrees h s) : Fresh s.grammar where
  names := by
    rw [hs.names]
    exact nodup_eraseDups h.mentions
  stale := hs.stale
  firstSet := fun id x hx => congrArg Symbol.firstSet (hs.symbol_of_get? hx)
  inRange := by
    intro r hr
    -- each rule tells an alternative, whose names have numbers
    obtain ⟨a, -, hra⟩ := exists_of_mem_left hs.rules hr
    refine ⟨hs.lt_size_of_numbers hra.lhs, fun id hid => ?_⟩
    obtain ⟨n, -, hn⟩ := exists_of_mem_left hra.rhs hid
    exact hs.lt_size_of_numbers hn
  nonterminal := by
    -- rules and flags come from left-hand sides, which are nonterminals by their names
    rintro id x rhs hx hprod
    apply hs.isTerminal_eq_false hx
    cases hprod with
    | rule r hr =>
      obtain ⟨a, ha, hra⟩ := exists_of_mem_left hs.rules hr
      have hname : some x.name = some a.lhs := by
        rw [← hra.lhs, ← hs.names, SymbolTable.names_getElem?, hx]
        rfl
      rw [Option.some_inj.mp hname]
      exact (hs.known.lhs a (History.mem_alternatives ha)).2
    | flagged id hflag =>
      rw [SymbolTable.isNullable_eq_of_get? hx] at hflag
      obtain ⟨c, hc, -, -, hlhs⟩ := (hs.nullable_iff (List.mem_of_getElem? hx)).mp hflag
      rw [← hlhs]
      exact (hs.known.lhs c.alternative (List.mem_append_left _ (List.mem_map_of_mem hc))).2

end Agrees

/-! ## Texts -/

/-- However long a run is, its state agrees with a history. -/
theorem exists_agrees_run {n : Nat} {t : Tokenizer} {s : State} {r : Run}
    (hs : ∃ h, Agrees h s) (hrun : run n t s = .ok r) : ∃ h, Agrees h r.state := by
  refine run_induction (P := fun s => ∃ h, Agrees h s) ?_ ?_ ?_ hs hrun
  · rintro k s ⟨h, hs⟩
    exact ⟨_, agrees_consume hs k⟩
  · -- the trailing code is nothing that a history tells about
    rintro s code line ⟨h, hs⟩
    exact ⟨h, hs.of_core rfl hs.inRule⟩
  · rintro s line problem ⟨h, hs⟩
    exact ⟨h, hs.report line problem⟩

/-- A document is what a run yields. -/
theorem exists_readText_of_parse {file text : String} {o : Except (List Diagnostic) Document}
    (hparse : parse file text = .ok o) : ∃ r, readText file text = .ok r ∧ r.outcome = o := by
  unfold parse at hparse
  cases hread : readText file text with
  | error e =>
    rw [hread] at hparse
    cases hparse
  | ok r =>
    rw [hread] at hparse
    exact ⟨r, rfl, Except.ok.inj hparse⟩

/-- The grammar of a document agrees with a history. -/
theorem exists_agrees_of_parse {file text : String} {d : Document}
    (hparse : parse file text = .ok (.ok d)) : ∃ h s, Agrees h s ∧ s.grammar = d.grammar := by
  obtain ⟨r, hread, houtcome⟩ := exists_readText_of_parse hparse
  obtain ⟨h, hs⟩ := exists_agrees_run ⟨_, agrees_initial file⟩ hread
  refine ⟨h, r.state, hs, ?_⟩
  -- only a run that is complete yields a document
  unfold Run.outcome at houtcome
  split at houtcome
  · cases houtcome
    rfl
  · cases houtcome

/-- First-sets are exact for every text that is accepted. The names that a nonterminal is given are
those of the terminals that it can begin with, in strictly ascending order of their bytes; and a
terminal is given none. -/
theorem firstSetNames_of_parse {file text : String} {d : Document}
    (hparse : parse file text = .ok (.ok d)) :
    (∀ A x, d.grammar.table.get? A = some x → x.isTerminal = false →
      ∃ names, d.grammar.analyze.firstSetNames A = .ok names ∧
        names.Pairwise (fun a b => Text.bytes a < Text.bytes b) ∧
        ∀ n, n ∈ names ↔ ∃ c y w, d.grammar.table.get? c = some y ∧ y.isTerminal = true ∧
          y.name = n ∧ d.grammar.DerivesPlus [A] (c :: w)) ∧
    ∀ c y, d.grammar.analyze.table.get? c = some y → y.isTerminal = true →
      y.firstSet.toList = [] := by
  obtain ⟨h, s, hs, hgrammar⟩ := exists_agrees_of_parse hparse
  have hfresh : Fresh d.grammar := hgrammar ▸ hs.fresh
  refine ⟨fun A x hx hnonterminal => ?_, fun c y => hfresh.firstSet_analyze_of_terminal⟩
  obtain ⟨names, hok, hsorted, hmem⟩ := hfresh.firstSetNames_analyze hx hnonterminal
  exact ⟨names, hok, hsorted.imp fun hlt => (Text.lt_iff_bytes_lt _ _).mp hlt, hmem⟩

/-- The document of a left-recursive list. -/
def leftRecursive : Document where
  grammar :=
    { table :=
        { symbols := [{ Symbol.ofName "s" with firstRule := some 1 }, .ofName "A", .ofName "B"]
          stale := true
          terminals := 2
          nonterminals := 1 }
      rules := [⟨0, 1, [0, 1], none, none, none⟩, ⟨0, 1, [2], none, none, some 0⟩]
      importCode := some ⟨"", 1⟩ }
  errors := []

/-- A left-recursive list begins with what its other alternative begins with. -/
theorem firstSetNames_of_parse_leftRecursive :
    parse "list.y" "%{%}%%s:s A|B;" = .ok (.ok leftRecursive) ∧
      leftRecursive.grammar.analyze.firstSetNames 0 = .ok ["B"] ∧
      ∃ c y w, leftRecursive.grammar.table.get? c = some y ∧ y.isTerminal = true ∧
        y.name = "B" ∧ leftRecursive.grammar.DerivesPlus [0] (c :: w) := by
  have hparse : parse "list.y" "%{%}%%s:s A|B;" = .ok (.ok leftRecursive) := by rfl
  have hnames : leftRecursive.grammar.analyze.firstSetNames 0 = .ok ["B"] := by rfl
  obtain ⟨names, hok, -, hmem⟩ := (firstSetNames_of_parse hparse).1 0 _ rfl rfl
  rw [hnames, Except.ok.injEq] at hok
  exact ⟨hparse, hnames, (hmem "B").mp (hok ▸ List.mem_cons_self)⟩

end YaccGrammar.Reading
