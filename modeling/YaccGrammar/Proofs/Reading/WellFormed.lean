import YaccGrammar.Proofs.Reading.Chain
import YaccGrammar.Proofs.Reading.Outcome

/-!
# Well-formed grammars

What is true of a grammar at every moment of its reading. The kind of a symbol is the one that its
name tells; only nonterminals have rules, derive the empty text or are declared as start symbol, and
only terminals have a precedence; and every number that occurs is that of a symbol or of a rule.

Left-hand sides, declared names and names on right-hand sides are told apart by three different
tests. That none of them contradicts the kind of a symbol follows from the history of the reading,
which holds a name only where its test has accepted it.

## Main statement

- `wellFormed_consumeAll`: the grammar is well-formed, whatever the tokens were.
-/

namespace YaccGrammar

/-! ## The invariant -/

/-- A number is that of a nonterminal. -/
def SymbolTable.IsNonterminal (t : SymbolTable) (id : SymbolId) : Prop :=
  ∃ x, t.get? id = some x ∧ x.kind = .nonterminal

/-- What reading keeps true of one symbol. -/
structure Symbol.WellFormed (x : Symbol) : Prop where
  kind : x.kind = .ofName x.name
  nullable : x.nullable = true → x.kind = .nonterminal
  firstRule : x.firstRule.isSome = true → x.kind = .nonterminal
  precedence : x.precedence.isSome = true → x.kind = .terminal
  assoc : x.precedence.isSome = true ↔ x.assoc ≠ .unknown

/-- What reading keeps true of a grammar. -/
structure Grammar.WellFormed (g : Grammar) : Prop where
  symbol : ∀ x ∈ g.table.symbols, x.WellFormed
  firstRule : ∀ x ∈ g.table.symbols, ∀ k, x.firstRule = some k → k < g.rules.length
  lhs : ∀ r ∈ g.rules, g.table.IsNonterminal r.lhs
  rhs : ∀ r ∈ g.rules, ∀ id ∈ r.rhs, id < g.table.size
  precSymbol : ∀ r ∈ g.rules, ∀ id, r.precSymbol = some id → id < g.table.size
  nextLhs : ∀ r ∈ g.rules, ∀ k, r.nextLhs = some k → k < g.rules.length
  declaredStart : ∀ id, g.declaredStart = some id → g.table.IsNonterminal id

/-! ## Links -/

/-- The last rule below a number is a rule of the left-hand side that was looked for. -/
theorem lhs_of_lastBelow {rules : List Rule} {lhs : SymbolId} {k j : Nat}
    (h : lastBelow rules lhs k = some j) : ∃ r, rules[j]? = some r ∧ r.lhs = lhs := by
  induction k with
  | zero => cases h
  | succ k ih =>
    rw [lastBelow] at h
    split at h
    · next hk =>
      cases h
      exact Option.map_eq_some_iff.mp hk
    · exact ih h

namespace Reading

variable {h : History} {s : State}

/-! ## Entries -/

/-- A precedence is given to terminals, and by a keyword that tells how the symbol groups. -/
theorem DeclEntry.ranks_of_rank? {entries : List DeclEntry} {n : String} {e : DeclEntry} {i : Nat}
    (h : DeclEntry.rank? entries n = some (e, i)) :
    assocOf e.keyword ≠ .unknown ∧ Name.isTerminal n = true := by
  obtain ⟨hmem, hname⟩ := List.mem_filter.mp (List.mem_of_getLast? h)
  have hranked : e ∈ DeclEntry.ranked entries := List.fst_mem_of_mem_zipIdx hmem
  have hranks := (List.mem_filter.mp hranked).2
  rw [Bool.and_eq_true, decide_eq_true_eq] at hranks
  rw [decide_eq_true_eq] at hname
  exact ⟨hranks.1, hname ▸ hranks.2⟩

/-- A symbol groups in some way just if it has a precedence. -/
theorem DeclEntry.assoc_symbol (entries : List DeclEntry) (b : Bool) (n : String) :
    (DeclEntry.symbol entries b n).precedence.isSome = true ↔
      (DeclEntry.symbol entries b n).assoc ≠ .unknown := by
  cases hrank : DeclEntry.rank? entries n with
  | none => simp [DeclEntry.symbol, hrank]
  | some p => simp [DeclEntry.symbol, hrank, (DeclEntry.ranks_of_rank? hrank).1]

/-- Only a terminal is given a precedence. -/
theorem DeclEntry.isTerminal_of_precedence {entries : List DeclEntry} {b : Bool} {n : String}
    (h : (DeclEntry.symbol entries b n).precedence.isSome = true) : Name.isTerminal n = true := by
  rw [DeclEntry.symbol, Option.isSome_map, Option.isSome_iff_exists] at h
  obtain ⟨p, hp⟩ := h
  exact (DeclEntry.ranks_of_rank? hp).2

/-! ## Agreement with a history -/

/-- What is related to something is something. -/
theorem exists_of_rel_some {α β : Type} {r : α → β → Prop} {a : α} {o : Option β}
    (h : Option.Rel r (some a) o) : ∃ b, o = some b ∧ r a b := by
  cases h with
  | some hab => exact ⟨_, rfl, hab⟩

namespace Agrees

/-- The number of a name that was accepted as a nonterminal. -/
theorem isNonterminal_of_numbers (hs : Agrees h s) {id : SymbolId} {n : String}
    (hid : Numbers h.names id n) (hn : Name.isNonterminal n = true) :
    s.grammar.table.IsNonterminal id := by
  rw [← hs.names, Numbers, SymbolTable.names_getElem?] at hid
  obtain ⟨x, hx, rfl⟩ := Option.map_eq_some_iff.mp hid
  have hkind : x.kind = .ofName x.name := congrArg Symbol.kind (hs.symbol_of_get? hx)
  exact ⟨x, hx, hkind.trans (SymbolKind.ofName_of_isNonterminal hn)⟩

/-- Rules have nonterminals as left-hand sides. -/
theorem isNonterminal_lhs (hs : Agrees h s) {r : Rule} (hr : r ∈ s.grammar.rules) :
    s.grammar.table.IsNonterminal r.lhs := by
  obtain ⟨a, ha, hra⟩ := exists_of_mem_left hs.rules hr
  exact hs.isNonterminal_of_numbers hra.lhs (hs.known.lhs a (History.mem_alternatives ha)).2

/-- Only left-hand sides are flagged. -/
theorem isNonterminal_of_nullable (hs : Agrees h s) {x : Symbol}
    (hx : x ∈ s.grammar.table.symbols) (hflag : x.nullable = true) :
    Name.isNonterminal x.name = true := by
  obtain ⟨c, hc, -, -, hlhs⟩ := (hs.nullable_iff hx).mp hflag
  rw [← hlhs]
  exact (hs.known.lhs c.alternative (List.mem_append_left _ (List.mem_map_of_mem hc))).2

/-- A symbol of a grammar that agrees with a history is well-formed. -/
theorem wellFormed_symbol (hs : Agrees h s) (hchained : s.grammar.Chained) {x : Symbol}
    (hx : x ∈ s.grammar.table.symbols) : x.WellFormed := by
  obtain ⟨id, hid⟩ := List.getElem?_of_mem hx
  have hsymbol := hs.symbol_of_get? hid
  -- kind and precedence are those that the history gives the name
  have hkind : x.kind = .ofName x.name := congrArg Symbol.kind hsymbol
  have hprecedence : x.precedence = (h.symbol x.name).precedence :=
    (congrArg Symbol.precedence hsymbol :)
  have hassoc : x.assoc = (h.symbol x.name).assoc := (congrArg Symbol.assoc hsymbol :)
  constructor
  case kind => exact hkind
  case nullable =>
    intro hflag
    rw [hkind, SymbolKind.ofName_of_isNonterminal (hs.isNonterminal_of_nullable hx hflag)]
  case firstRule =>
    -- the symbol is the left-hand side of the rule to which it is linked
    intro hfirst
    obtain ⟨k, hk⟩ := Option.isSome_iff_exists.mp hfirst
    rw [hchained.first id x hid] at hk
    obtain ⟨r, hr, rfl⟩ := lhs_of_lastBelow hk
    obtain ⟨y, hy, hnonterminal⟩ := hs.isNonterminal_lhs (List.mem_of_getElem? hr)
    rw [SymbolTable.get?, hid, Option.some_inj] at hy
    rw [hy, hnonterminal]
  case precedence =>
    intro hsome
    rw [hprecedence] at hsome
    rw [hkind, SymbolKind.ofName_of_isTerminal (DeclEntry.isTerminal_of_precedence hsome)]
  case assoc =>
    rw [hprecedence, hassoc]
    exact DeclEntry.assoc_symbol h.entries (h.flags x.name) x.name

/-- A chained grammar that agrees with a history is well-formed. -/
theorem wellFormed (hs : Agrees h s) (hchained : s.grammar.Chained) : s.grammar.WellFormed where
  symbol := fun x hx => hs.wellFormed_symbol hchained hx
  firstRule := by
    intro x hx k hk
    -- links are read off the chains, which end below the number of rules
    obtain ⟨id, hid⟩ := List.getElem?_of_mem hx
    rw [hchained.first id x hid] at hk
    exact (lt_of_lastBelow hk).2
  lhs := fun r hr => hs.isNonterminal_lhs hr
  rhs := fun r hr => (hs.fresh.inRange r hr).2
  precSymbol := by
    intro r hr id hid
    -- a number behind `%prec` is that of a name that was mentioned
    obtain ⟨a, -, hra⟩ := exists_of_mem_left hs.rules hr
    obtain ⟨n, -, hn⟩ := exists_of_rel_some (hid ▸ hra.prec)
    exact hs.lt_size_of_numbers hn
  nextLhs := by
    intro r hr k hk
    obtain ⟨j, hj⟩ := List.getElem?_of_mem hr
    rw [hchained.next j r hj] at hk
    exact (lt_of_lastBelow hk).2
  declaredStart := by
    intro id hid
    obtain ⟨n, hentry, hn⟩ := exists_of_rel_some (hid ▸ hs.declaredStart)
    exact hs.isNonterminal_of_numbers hn (DeclEntry.isNonterminal_of_start? hentry)

end Agrees

/-! ## Reading -/

/-- Rules are chained by their left-hand sides, whatever the tokens were. -/
theorem chained_consumeAll (file : String) (ts : List Token) :
    (consumeAll ts (.initial file)).grammar.Chained := by
  have hempty : (State.initial file).grammar.Chained := ⟨by simp [State.initial], nofun, nofun⟩
  exact hempty.edits (effect_consumeAll ts (.initial file)).1

/-- The grammar is well-formed whatever the tokens were and however many of them were out of place:
no declaration makes a symbol what its name does not tell, and no rule, precedence or start symbol
is given to a symbol of the other kind. -/
theorem wellFormed_consumeAll (file : String) (ts : List Token) :
    (consumeAll ts (.initial file)).grammar.WellFormed :=
  (agrees_consumeAll file ts).wellFormed (chained_consumeAll file ts)

end Reading

end YaccGrammar
