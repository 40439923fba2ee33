import YaccGrammar.Proofs.Reading.WellFormed

/-!
# Kinds and the case of letters

By convention a symbol is a terminal if its name is a quoted literal or has no small letters. Kinds
are told by a test for capitals instead, which every letter has to pass. The two agree on letters
that are capital or small. A letter in title case, or of a script without case, is neither: a name
with such letters and no small ones is that of a nonterminal. It begins with no small letter, so no
rule can define it.

## Main statements

- `allCapital_iff`: the test for capitals, told by small letters and by letters without case.
- `SymbolKind.classified_ofName`: which names are those of terminals, and where the convention is
  missed.
- `classified_consumeAll`: the same for the symbols that are read.
-/

namespace YaccGrammar

/-! ## Letters -/

/-- Letters that are neither capital nor small. -/
def Letter.isCaseless (c : Char) : Bool := classOf c = .caseless

/-- What keeps a character from passing for a capital. -/
theorem Letter.isCapital_of_isAlphabetic_iff (c : Char) :
    (!isAlphabetic c || isCapital c) = true ↔ isSmall c = false ∧ isCaseless c = false := by
  unfold isAlphabetic isCapital isSmall isCaseless
  cases classOf c <;> decide

namespace Name

/-- The name has no small letters. -/
def lacksSmall (name : String) : Bool := name.toList.all fun c => !Letter.isSmall c

/-- The name has a letter that is neither capital nor small. -/
def hasCaseless (name : String) : Bool := name.toList.any Letter.isCaseless

/-- By convention the name is that of a terminal. -/
def isTerminalByCase (name : String) : Bool := isLiteral name || lacksSmall name

/-- A name passes for capitals just if it has no small letters and none without case. -/
theorem allCapital_iff (name : String) :
    allCapital name = true ↔ lacksSmall name = true ∧ hasCaseless name = false := by
  simp only [allCapital, lacksSmall, hasCaseless, List.all_eq_true, List.any_eq_false,
    Letter.isCapital_of_isAlphabetic_iff, Bool.not_eq_true', Bool.not_eq_true]
  exact ⟨fun h => ⟨fun c hc => (h c hc).1, fun c hc => (h c hc).2⟩,
    fun h c hc => ⟨h.1 c hc, h.2 c hc⟩⟩

/-- A name that begins with a small letter has one. -/
theorem lacksSmall_eq_false_of_isNonterminal {name : String} (h : isNonterminal name = true) :
    lacksSmall name = false := by
  rw [isNonterminal, Bool.and_eq_true, Option.any_eq_true] at h
  obtain ⟨⟨c, hc, hsmall⟩, -⟩ := h
  rw [lacksSmall, List.all_eq_false]
  exact ⟨c, List.mem_of_head? hc, by simp [hsmall]⟩

end Name

/-! ## Kinds -/

open Name in
/-- How a kind is told by a name. Where the convention is missed, the name is no literal and has
letters without case. -/
structure SymbolKind.Classified (kind : SymbolKind) (name : String) : Prop where
  terminal : kind = .terminal ↔
    isLiteral name = true ∨ lacksSmall name = true ∧ hasCaseless name = false
  sound : kind = .terminal → isTerminalByCase name = true
  missed : kind = .nonterminal ∧ isTerminalByCase name = true ↔
    isLiteral name = false ∧ lacksSmall name = true ∧ hasCaseless name = true

/-- A name makes a terminal just if it is a literal or passes for capitals. -/
theorem SymbolKind.ofName_eq_terminal_iff (name : String) :
    ofName name = .terminal ↔
      Name.isLiteral name = true ∨ Name.lacksSmall name = true ∧ Name.hasCaseless name = false := by
  rw [← Name.allCapital_iff, ← Bool.or_eq_true, ← Name.isTerminal, ofName]
  split <;> simp [*]

/-- Which names are those of terminals. -/
theorem SymbolKind.classified_ofName (name : String) : Classified (ofName name) name where
  terminal := ofName_eq_terminal_iff name
  sound := by
    rw [ofName_eq_terminal_iff, Name.isTerminalByCase, Bool.or_eq_true]
    exact Or.imp_right And.left
  missed := by
    -- what is no terminal is a nonterminal, so both follow from one condition
    have hother : ofName name = .nonterminal ↔ ¬ ofName name = .terminal := by
      cases ofName name <;> decide
    rw [hother, ofName_eq_terminal_iff, Name.isTerminalByCase]
    cases Name.isLiteral name <;> cases Name.lacksSmall name <;> cases Name.hasCaseless name <;>
      decide

namespace Reading

/-- The left-hand side of a rule begins with a small letter. -/
theorem Agrees.isNonterminal_name_lhs {h : History} {s : State} (hs : Agrees h s) {r : Rule}
    (hr : r ∈ s.grammar.rules) {x : Symbol} (hx : s.grammar.table.get? r.lhs = some x) :
    Name.isNonterminal x.name = true := by
  obtain ⟨a, ha, hra⟩ := exists_of_mem_left hs.rules hr
  have hname := hra.lhs
  rw [← hs.names, Numbers, SymbolTable.names_getElem?, hx, Option.map_some,
    Option.some_inj] at hname
  rw [hname]
  exact (hs.known.lhs a (History.mem_alternatives ha)).2

/-- Kinds are told by names, wherever a symbol is seen first and whatever is declared of it. So a
symbol that is a nonterminal against the convention stays one, and no rule defines it. -/
theorem classified_consumeAll (file : String) (ts : List Token) :
    (∀ name, SymbolKind.Classified (.ofName name) name) ∧
      ∀ id x, (consumeAll ts (.initial file)).grammar.table.get? id = some x →
        SymbolKind.Classified x.kind x.name ∧
          (x.kind = .nonterminal ∧ Name.isTerminalByCase x.name = true →
            ∀ r ∈ (consumeAll ts (.initial file)).grammar.rules, r.lhs ≠ id) := by
  have hagrees := agrees_consumeAll file ts
  refine ⟨SymbolKind.classified_ofName, fun id x hx => ?_⟩
  have hkind : x.kind = .ofName x.name := congrArg Symbol.kind (hagrees.symbol_of_get? hx)
  have hclassified : SymbolKind.Classified x.kind x.name :=
    hkind ▸ SymbolKind.classified_ofName x.name
  refine ⟨hclassified, fun hmissed r hr hlhs => ?_⟩
  -- a left-hand side has a small letter, and a name that misses the convention has none
  have hsmall := Name.lacksSmall_eq_false_of_isNonterminal
    (hagrees.isNonterminal_name_lhs hr (hlhs ▸ hx))
  rw [(hclassified.missed.mp hmissed).2.1] at hsmall
  cases hsmall

/-- A name of one letter without case, seen first on a right-hand side. -/
theorem nonterminal_of_caselessName :
    let before : List Token := [⟨"%", 1⟩, ⟨"\x7b%\x7d", 1⟩, ⟨"%", 1⟩, ⟨"%", 1⟩, ⟨"s", 1⟩, ⟨":", 1⟩]
    let s := consumeAll before (.initial "list.y")
    s.phase = .ruleBody ∧ s.grammar.table.find? "中" = none ∧
      Name.isLiteral "中" = false ∧ Name.lacksSmall "中" = true ∧
      SymbolKind.ofName "中" = .nonterminal ∧
      ∃ x ∈ (consume ⟨"中", 1⟩ s).grammar.table.symbols, x.name = "中" ∧ x.kind = .nonterminal := by
  decide +kernel

end Reading

end YaccGrammar
