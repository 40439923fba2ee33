import YaccGrammar.Proofs.Reading.History
import YaccGrammar.Proofs.Symbol.Intern

/-!
# Symbols from entries

How one more entry changes the symbols that a list of entries makes of names, and that reading a
declared name changes the table in the same way.

## Main statements

- `DeclEntry.rank?_eq_some_iff`: a rank is the place of the last entry of a name.
- `DeclEntry.symbol_append`: an entry changes the symbol that it names and no other.
- `declare_eq`: a declared name is interned and then changed by its entry.
-/

namespace YaccGrammar

/-- Gives a symbol a tag, if there is one. -/
def Symbol.retag (tag : Option String) (x : Symbol) : Symbol := { x with tag := tag <|> x.tag }

namespace Reading

namespace DeclEntry

/-! ## One more entry -/

/-- The entry gives a precedence. -/
def ranks (e : DeclEntry) : Bool := assocOf e.keyword ≠ .unknown && Name.isTerminal e.name

/-- The entry is an accepted start declaration. -/
def starts (e : DeclEntry) : Bool := e.keyword = .start && Name.isNonterminal e.name

/-- What an entry makes of a symbol when `rank` entries before it gave precedences. -/
def apply (e : DeclEntry) (rank : Nat) (x : Symbol) : Symbol :=
  { x with
    tag := e.tag <|> x.tag
    precedence := if e.ranks then some rank else x.precedence
    assoc := if e.ranks then assocOf e.keyword else x.assoc }

/-- Without a precedence, an entry does no more than its tag. -/
theorem apply_of_not_ranks {e : DeclEntry} (h : e.ranks = false) (rank : Nat) :
    e.apply rank = Symbol.retag e.tag := by
  funext x
  simp [apply, Symbol.retag, h]

/-- With a precedence, an entry sets it behind the tag. -/
theorem apply_of_ranks {e : DeclEntry} (h : e.ranks = true) (rank : Nat) :
    e.apply rank = (fun x => { x with assoc := assocOf e.keyword, precedence := some rank }) ∘
      Symbol.retag e.tag := by
  funext x
  simp [apply, Symbol.retag, h]

/-- One more entry counts if it gives a precedence. -/
theorem ranked_append (es : List DeclEntry) (e : DeclEntry) :
    ranked (es ++ [e]) = ranked es ++ if e.ranks then [e] else [] := by
  rw [ranked, List.filter_append, ranked]
  congr 1
  cases he : e.ranks with
  | false => exact List.filter_cons_of_neg (by simpa [ranks] using he)
  | true => exact List.filter_cons_of_pos (by simpa [ranks] using he)

/-- One more entry gives its name a rank if it gives a precedence, and no other name. -/
theorem rank?_append (es : List DeclEntry) (e : DeclEntry) (n : String) :
    rank? (es ++ [e]) n =
      if e.ranks = true ∧ e.name = n then some (e, (ranked es).length) else rank? es n := by
  rw [rank?, ranked_append]
  -- only an entry with a precedence can be of any consequence
  by_cases hranks : e.ranks = true
  · by_cases hn : e.name = n
    · simp [hranks, hn, List.zipIdx_append]
    · simp [hranks, hn, List.zipIdx_append, rank?]
  · simp [hranks, rank?]

/-- One more entry gives its name a tag if it has one, and no other name. -/
theorem tag?_append (es : List DeclEntry) (e : DeclEntry) (n : String) :
    tag? (es ++ [e]) n = if e.name = n then e.tag <|> tag? es n else tag? es n := by
  by_cases hn : e.name = n
  · cases htag : e.tag with
    | none => simp [tag?, hn, htag]
    | some tag => simp [tag?, hn, htag]
  · simp [tag?, hn]

/-- One more entry names the start symbol only if no entry before it does. -/
theorem start?_append (es : List DeclEntry) (e : DeclEntry) :
    start? (es ++ [e]) = (start? es <|> if e.starts then some e.name else none) := by
  cases hfind : es.find? fun e => e.keyword = .start && Name.isNonterminal e.name with
  -- the first entry counts, so another one makes no difference
  | some e' => simp [start?, List.find?_append, hfind]
  | none =>
    cases he : e.starts with
    | false => simp_all [start?, starts]
    | true => simp_all [start?, starts]

/-- One more entry changes the symbol that it names, and no other. -/
theorem symbol_append (es : List DeclEntry) (e : DeclEntry) (b : Bool) (n : String) :
    symbol (es ++ [e]) b n =
      if e.name = n then e.apply (ranked es).length (symbol es b n) else symbol es b n := by
  by_cases hn : e.name = n
  · by_cases hranks : e.ranks = true
    · simp [symbol, apply, rank?_append, tag?_append, hn, hranks]
    · simp [symbol, apply, rank?_append, tag?_append, hn, hranks]
  · simp [symbol, rank?_append, tag?_append, hn]

/-- Nothing is known about a name without entries. -/
theorem symbol_eq_ofName {es : List DeclEntry} {n : String} (h : ∀ e ∈ es, e.name ≠ n) :
    symbol es false n = Symbol.ofName n := by
  have hrank : rank? es n = none := by
    rw [rank?, List.getLast?_eq_none_iff, List.filter_eq_nil_iff]
    rintro ⟨e, i⟩ hmem
    have he : e ∈ ranked es := List.fst_mem_of_mem_zipIdx hmem
    simpa using h e (List.mem_filter.mp he).1
  have htag : tag? es n = none := by
    rw [tag?, List.filter_eq_nil_iff.mpr (by simpa using h)]
    rfl
  simp [symbol, Symbol.ofName, hrank, htag]

/-! ## The last entries -/

/-- The entry stands at this place of the list, and no entry of the same name behind it. -/
structure IsLastOf (n : String) (entries : List DeclEntry) (i : Nat) (e : DeclEntry) : Prop where
  get : entries[i]? = some e
  name : e.name = n
  last : ∀ j e', i < j → entries[j]? = some e' → e'.name ≠ n

/-- In no entries there is none that is last. -/
theorem isLastOf_nil {n : String} {i : Nat} {e : DeclEntry} : ¬ IsLastOf n [] i e :=
  fun h => by simpa using h.get

/-- The last entry that names the symbol is the one that is appended, if it names it. -/
theorem isLastOf_concat_self {n : String} {entries : List DeclEntry} {e e' : DeclEntry} {i : Nat}
    (hn : e.name = n) : IsLastOf n (entries ++ [e]) i e' ↔ i = entries.length ∧ e' = e := by
  have hconcat : (entries ++ [e])[entries.length]? = some e := by simp
  have hbound {j : Nat} {x : DeclEntry} (hx : (entries ++ [e])[j]? = some x) :
      j ≤ entries.length := by
    have hlt := (List.getElem?_eq_some_iff.mp hx).1
    rw [List.length_append, List.length_singleton] at hlt
    exact Nat.le_of_lt_succ hlt
  constructor
  · intro h
    -- an earlier entry is not the last one, as the appended one names the symbol too
    have hlast : i = entries.length := by
      rcases Nat.lt_or_eq_of_le (hbound h.get) with hlt | heq
      · exact absurd hn (h.last entries.length e hlt hconcat)
      · exact heq
    subst hlast
    have hget := h.get
    rw [hconcat] at hget
    exact ⟨rfl, (Option.some.inj hget).symm⟩
  · rintro ⟨rfl, rfl⟩
    exact ⟨hconcat, hn, fun j x hj hx => absurd (hbound hx) (Nat.not_le_of_lt hj)⟩

/-- What is appended does not matter if it names another symbol. -/
theorem isLastOf_concat_of_ne {n : String} {entries : List DeclEntry} {e e' : DeclEntry} {i : Nat}
    (hn : e.name ≠ n) : IsLastOf n (entries ++ [e]) i e' ↔ IsLastOf n entries i e' := by
  -- places in front of the last one are those of the shorter list
  have hget {j : Nat} {x : DeclEntry} (hx : x.name = n) :
      (entries ++ [e])[j]? = some x ↔ entries[j]? = some x := by
    by_cases hj : j < entries.length
    · rw [List.getElem?_append_left hj]
    · rw [List.getElem?_append_right (Nat.le_of_not_lt hj),
        List.getElem?_eq_none (Nat.le_of_not_lt hj)]
      refine ⟨fun h => ?_, fun h => nomatch h⟩
      exact absurd (List.mem_singleton.mp (List.mem_of_getElem? h) ▸ hx) hn
  constructor
  · intro h
    refine ⟨(hget h.name).mp h.get, h.name, fun j x hj hx hname => ?_⟩
    exact h.last j x hj ((hget hname).mpr hx) hname
  · intro h
    refine ⟨(hget h.name).mpr h.get, h.name, fun j x hj hx hname => ?_⟩
    exact h.last j x hj ((hget hname).mp hx) hname

/-- A rank is the place of the last entry that gives the name a precedence. -/
theorem rank?_eq_some_iff {entries : List DeclEntry} {n : String} {e : DeclEntry} {i : Nat} :
    rank? entries n = some (e, i) ↔ IsLastOf n (ranked entries) i e := by
  induction entries using List.reverseRecOn with
  | nil => simpa [rank?, ranked] using isLastOf_nil
  | append_singleton entries e' ih =>
    rw [rank?_append, ranked_append]
    -- an entry without a precedence is not counted
    cases hranks : e'.ranks with
    | false => simpa [hranks] using ih
    | true =>
      by_cases hn : e'.name = n
      · simp [hn, isLastOf_concat_self hn, eq_comm, and_comm]
      · simp only [true_and, if_true, if_neg hn, isLastOf_concat_of_ne hn, ih]

/-- A name has no rank if no entry gives it a precedence. -/
theorem rank?_eq_none_iff {entries : List DeclEntry} {n : String} :
    rank? entries n = none ↔ ∀ e ∈ ranked entries, e.name ≠ n := by
  rw [rank?, List.getLast?_eq_none_iff, List.filter_eq_nil_iff]
  constructor
  · intro h e he
    obtain ⟨i, hi⟩ := List.getElem?_of_mem he
    simpa using h (e, i) (List.mem_zipIdx_iff_getElem?.mpr hi)
  · rintro h ⟨e, i⟩ hmem
    simpa using h e (List.fst_mem_of_mem_zipIdx hmem)

end DeclEntry

/-! ## Reading a declared name -/

/-- The names that a keyword accepts. -/
def accepts : Keyword → String → Bool
  | .type, n | .start, n => Name.isNonterminal n
  | .token, n | .left, n | .right, n | .nonassoc, n => Name.isTerminal n
  | .prec, _ | .union, _ => true

/-- A keyword sets a kind only where the name has that kind already. So a declaration interns the
name and does to its symbol what the entry says, and nothing else but count the precedences and
note the first start symbol. -/
theorem declare_eq {k : Keyword} {t : Token} {s : State} {table : SymbolTable} {id : SymbolId}
    {x : Symbol} {e : DeclEntry} (he : e = ⟨k, s.tag, t.text⟩)
    (hinsert : s.grammar.table.insert t.text = (id, table)) (hx : table.get? id = some x)
    (hkind : x.kind = .ofName t.text) :
    ∃ errors, declare k t s =
      { s with
        nextPrecedence := s.nextPrecedence + if e.ranks then 1 else 0
        grammar := { s.grammar with
          table := table.modify id (e.apply s.nextPrecedence)
          declaredStart := s.grammar.declaredStart <|> if e.starts then some id else none }
        errors } ∧
      (accepts k t.text → (k = .start → s.grammar.declaredStart = none) → errors = s.errors) := by
  -- the keyword sets the kind that the name has anyway
  have hset {kind : SymbolKind} (h : .ofName t.text = kind) :
      (table.modify id (Symbol.retag s.tag)).setKind id kind =
        table.modify id (Symbol.retag s.tag) :=
    SymbolTable.setKind_eq_self (x := x.retag s.tag) (by simp [SymbolTable.get?_modify, hx])
      (hkind.trans h)
  subst he
  have hplain (h : DeclEntry.ranks ⟨k, s.tag, t.text⟩ = false) :
      DeclEntry.apply ⟨k, s.tag, t.text⟩ s.nextPrecedence = Symbol.retag s.tag :=
    DeclEntry.apply_of_not_ranks h s.nextPrecedence
  have hranked (h : DeclEntry.ranks ⟨k, s.tag, t.text⟩ = true) :
      DeclEntry.apply ⟨k, s.tag, t.text⟩ s.nextPrecedence =
        (fun x => { x with assoc := assocOf k, precedence := some s.nextPrecedence }) ∘
          Symbol.retag s.tag :=
    DeclEntry.apply_of_ranks h s.nextPrecedence
  unfold declare
  lift_lets
  intro id' g
  -- the symbol that is written is the one that the name was interned as
  have hid : id' = id := by simp only [id', Grammar.intern, hinsert]
  -- the tag is set before the keyword is looked at
  have hg : g = { s.grammar with table := table.modify id (Symbol.retag s.tag) } := by
    simp only [g, Grammar.intern, hinsert, hid]
    cases htag : s.tag with
    | none => rw [SymbolTable.modify_eq_self (f := Symbol.retag none) (fun x => rfl)]
    | some tag => rfl
  clear_value g id'
  subst hg hid
  cases k with
  | type =>
    have hranks : DeclEntry.ranks ⟨.type, s.tag, t.text⟩ = false := rfl
    have hstarts : DeclEntry.starts ⟨.type, s.tag, t.text⟩ = false := rfl
    simp only [hplain hranks, hranks, hstarts]
    split
    · next h =>
      have hkind := SymbolKind.ofName_of_isNonterminal h
      simp [State.modifyGrammar, Grammar.modifyTable, hset hkind]
    · next h => simp [State.report, accepts, h]
  | token =>
    have hranks : DeclEntry.ranks ⟨.token, s.tag, t.text⟩ = false := rfl
    have hstarts : DeclEntry.starts ⟨.token, s.tag, t.text⟩ = false := rfl
    simp only [hplain hranks, hranks, hstarts]
    split
    · next h =>
      have hkind := SymbolKind.ofName_of_isTerminal h
      simp [State.modifyGrammar, Grammar.modifyTable, hset hkind]
    · next h => simp [State.report, accepts, h]
  | start =>
    have hranks : DeclEntry.ranks ⟨.start, s.tag, t.text⟩ = false := rfl
    simp only [hplain hranks, hranks]
    cases h : Name.isNonterminal t.text with
    | false => simp [State.report, accepts, DeclEntry.starts, h]
    | true =>
      cases hstart : s.grammar.declaredStart with
      | none => simp [State.modifyGrammar, DeclEntry.starts, h]
      -- a start symbol is known, so the name is refused
      | some first => simp [State.report, DeclEntry.starts]
  | prec | union => simp [hplain rfl, DeclEntry.ranks, DeclEntry.starts, assocOf]
  | left | right | nonassoc =>
    simp only
    cases h : Name.isTerminal t.text with
    | true =>
      have hkind := SymbolKind.ofName_of_isTerminal h
      rw [hranked (by simp [DeclEntry.ranks, assocOf, h])]
      simp [Grammar.modifyTable, hset hkind, SymbolTable.modify_modify, DeclEntry.ranks,
        DeclEntry.starts, assocOf, h]
    | false =>
      rw [hplain (by simp [DeclEntry.ranks, h])]
      simp [State.report, DeclEntry.ranks, DeclEntry.starts, accepts, h]

end Reading

end YaccGrammar
