import YaccGrammar.Proofs.Grammar.Intact
import YaccGrammar.Proofs.Guarded.Pipeline
import YaccGrammar.Proofs.Reading.WellFormed
import YaccGrammar.Proofs.Syntax.Names
import YaccGrammar.Proofs.Text.Failure

/-!
# Printed rules are read back

A rule is printed with blanks in front of the names of its right-hand side only; all else stands
side by side. Still the tokenizer finds its names again. The left-hand side is a word, and what
follows it and the other names are signs that continue no token; and a name is the text of a token,
whatever it is, since it was one when the grammar was read. That is so as well where names were
taken and reported at the same time.

Names of right-hand sides are words and literals, so the full stop behind them is the first one, and
it can be told from the printed rule what the rule is made of.

## Main statements

- `History.Shaped.observe`, `shaped_ofTokens`: what names look like, after any tokens.
- `lays_displayRule`, `Printable.tokenizes`: how the tokens stand in a printed rule, and that they
  are found there.
- `Printable.eq_of_ruleTokens`: the tokens tell what the rule is made of.
- `displayRule_reads_back`: the tokens of a printed rule, and what they tell.
-/

namespace YaccGrammar

open Text Tokenizer

namespace Reading

/-! ## Shapes of names -/

/-- Whatever was mentioned is the text of a token, and names of right-hand sides pass there. -/
structure History.Shaped (h : History) : Prop where
  mention : ∀ n ∈ h.mentions, IsTokenShaped n.toList
  symbol : ∀ a ∈ h.alternatives, ∀ n ∈ a.symbols, Name.isSymbol n = true

namespace History.Shaped

variable {h h' : History} {t : Token} {a : Alternative}

/-- A history in which nothing was read. -/
theorem initial : Shaped {} where
  mention := nofun
  symbol := nofun

/-- The text of a token may be mentioned. -/
theorem mentioned (hh : h.Shaped) {n : String} (hn : IsTokenShaped n.toList) :
    ({ h with mentions := h.mentions ++ [n] } : History).Shaped where
  mention := List.forall_mem_append.mpr ⟨hh.mention, List.forall_mem_singleton.mpr hn⟩
  symbol := hh.symbol

/-- An alternative takes the place of the one that was read. -/
theorem opened (hh : h.Shaped) (ha : ∀ n ∈ a.symbols, Name.isSymbol n = true) :
    ({ h with current := some a } : History).Shaped where
  mention := hh.mention
  symbol := List.forall_mem_append.mpr
    ⟨(List.forall_mem_append.mp hh.symbol).1, List.forall_mem_singleton.mpr ha⟩

/-- Nothing is read yet of an alternative that begins. -/
theorem begun (hh : h.Shaped) (lhs : String) :
    ({ h with current := some { lhs } } : History).Shaped :=
  hh.opened (List.forall_mem_nil _)

/-- The names of the open alternative pass as symbols. -/
theorem current (hh : h.Shaped) (ha : h.current = some a) :
    ∀ n ∈ a.symbols, Name.isSymbol n = true := by
  apply hh.symbol a
  rw [alternatives, ha]
  exact List.mem_append_right _ List.mem_cons_self

/-- An alternative that is closed keeps its names. -/
theorem closed (hh : h.Shaped) (ha : h.current = some a) (t : Token) :
    ({ h with closed := h.closed ++ [⟨a, t⟩], current := none } : History).Shaped where
  mention := hh.mention
  symbol := by
    simp only [alternatives, List.map_append, Option.toList_none, List.append_nil]
    exact List.forall_mem_append.mpr ⟨(List.forall_mem_append.mp hh.symbol).1,
      List.forall_mem_singleton.mpr (hh.current ha)⟩

/-- What a token adds to an alternative. -/
theorem observeAlternative (hh : h.Shaped) (ht : IsTokenShaped t.text.toList) (inBody : Bool) :
    (h.observeAlternative inBody t).Shaped := by
  unfold History.observeAlternative
  split
  · exact hh
  next a ha =>
  split
  · exact (hh.closed ha t).begun a.lhs
  split
  · exact hh.closed ha t
  split
  · exact hh.opened (a := { a with code := a.code <|> some t.text }) (hh.current ha :)
  split
  -- only in the body, and only what passes as a symbol
  next hsymbol =>
    rw [Bool.and_eq_true] at hsymbol
    exact (hh.mentioned ht).opened (a := { a with symbols := a.symbols ++ [t.text] }) <|
      List.forall_mem_append.mpr ⟨hh.current ha, List.forall_mem_singleton.mpr hsymbol.2⟩
  next => exact hh

/-- What a token adds among declared names. -/
theorem observeName (hh : h.Shaped) (ht : IsTokenShaped t.text.toList) :
    (h.observeName t).Shaped := by
  unfold History.observeName
  split
  · exact ⟨hh.mention, hh.symbol⟩
  split
  · exact hh
  split
  · exact hh
  · exact ⟨(hh.mentioned ht).mention, hh.symbol⟩

/-- What one token adds to a history. -/
theorem observe (hh : h.Shaped) (ht : IsTokenShaped t.text.toList) (phase : Phase) :
    (h.observe phase t).Shaped := by
  cases phase with
  | preamble | declaration | colon | precKeyword | trailerMark | trailer => exact hh
  | importBlock =>
    simp only [History.observe]
    split
    · exact ⟨hh.mention, hh.symbol⟩
    · exact hh
  | keyword =>
    simp only [History.observe, History.observeKeyword]
    split
    · exact hh
    split <;> exact ⟨hh.mention, hh.symbol⟩
  | tagOrBlock =>
    simp only [History.observe, History.observeTagOrBlock]
    split
    · exact hh
    split
    · exact ⟨hh.mention, hh.symbol⟩
    split
    · exact ⟨hh.mention, hh.symbol⟩
    · exact hh
  | declaredNames => exact hh.observeName ht
  | ruleHead =>
    simp only [History.observe, History.observeHead]
    split
    · exact (hh.mentioned ht).begun t.text
    · exact hh
  | ruleBody => exact hh.observeAlternative ht true
  | afterPrec => exact hh.observeAlternative ht false
  | precSymbol =>
    simp only [History.observe, History.observePrec]
    split
    · exact hh
    next a ha =>
    split
    · exact hh.opened (a := { a with prec := some t.text }) (hh.current ha :)
    · exact hh

/-- A token that is read twice adds twice. -/
theorem read (hh : h.Shaped) (ht : IsTokenShaped t.text.toList) (s : State) :
    (h.read t s).Shaped := by
  unfold History.read
  split
  · exact hh.observe ht _
  · exact (hh.observe ht _).observe ht _

/-- What a list of tokens adds to a history. -/
theorem readAll (hh : h.Shaped) {ts : List Token}
    (hts : ∀ k ∈ ts, IsTokenShaped k.text.toList) (s : State) : (h.readAll ts s).Shaped := by
  induction ts generalizing h s with
  | nil => exact hh
  | cons t ts ih =>
    obtain ⟨ht, hts⟩ := List.forall_mem_cons.mp hts
    exact ih (hh.read ht s) hts _

end History.Shaped

/-- What was mentioned in a list of tokens is the text of a token. -/
theorem shaped_ofTokens (file : String) {ts : List Token}
    (hts : ∀ k ∈ ts, IsTokenShaped k.text.toList) : (History.ofTokens file ts).Shaped :=
  History.Shaped.initial.readAll hts _

end Reading

/-! ## Printed rules -/

/-- A text has one list of tokens. -/
theorem Tokenizer.Tokenizes.unique {text : String} {xs ys : List String} (h : Tokenizes text xs)
    (h' : Tokenizes text ys) : xs = ys := by
  obtain ⟨ts, t, t', htakes, hnext, rfl⟩ := h
  obtain ⟨us, u, u', htakes', hnext', rfl⟩ := h'
  -- both lists end where nothing is left, so they are the same tokens
  obtain ⟨rfl, -⟩ := htakes.end_unique hnext nofun htakes' hnext' nofun
  rfl

/-- What a rule needs to be printed so that it can be read back. -/
structure Grammar.Printable (g : Grammar) (r : Rule) : Prop where
  inRange : r.lhs < g.table.size ∧ (∀ id ∈ r.rhs, id < g.table.size) ∧
    ∀ id, r.precSymbol = some id → id < g.table.size
  lhs : Name.IsWord (g.name r.lhs)
  rhs : ∀ id ∈ r.rhs, Name.IsWord (g.name id) ∨ Name.IsQuoted (g.name id)
  prec : ∀ id, r.precSymbol = some id → IsTokenShaped (g.name id).toList

/-- The tokens of a precedence. -/
def Grammar.precTokens (g : Grammar) : Option SymbolId → List String
  | some id => ["[", g.name id, "]"]
  | none => []

/-- The tokens of a printed rule. -/
def Grammar.ruleTokens (g : Grammar) (r : Rule) : List String :=
  g.name r.lhs :: ":" :: (r.rhs.map g.name ++ "." :: g.precTokens r.precSymbol)

namespace Name

variable {n : String}

/-- A word is the text of a token. -/
theorem isTokenShaped_of_isWord (h : IsWord n) : IsTokenShaped n.toList := .word h.1 h.2

/-- A literal is the text of a token. -/
theorem isTokenShaped_of_isQuoted (h : IsQuoted n) : IsTokenShaped n.toList := by
  obtain ⟨q, t, hq, ht, hn⟩ := h
  exact hn ▸ .literal hq ht

/-- A full stop is no name of a right-hand side. -/
theorem ne_stop (h : IsWord n ∨ IsQuoted n) : n ≠ "." := by
  rintro rfl
  rcases h with ⟨-, hall⟩ | ⟨q, t, hq, -, hn⟩
  · exact absurd hall (by decide)
  · obtain ⟨rfl, -⟩ := List.cons.inj hn
    exact absurd hq (by decide)

end Name

namespace Grammar

variable {g g' : Grammar} {r r' : Rule}

/-- The names of a right-hand side, each behind a blank, in front of a sign or a blank. -/
theorem lays_rhs {tail rest : List Char} {tokens : List String} {d : Char} {u : List Char}
    (hrest : rest = d :: u) (hword : Letter.isWordChar d = false) (hslash : d ≠ '/')
    (hstar : d ≠ '*') (hlays : Lays tail tokens rest) (names : List String) :
    Lays tail (names ++ tokens) ((String.join (names.map (" " ++ ·))).toList ++ rest) := by
  induction names with
  | nil => simpa using hlays
  | cons n names ih =>
    -- behind a name stands the blank of the next one, or what follows the last one
    have hseparated : Separated n ((String.join (names.map (" " ++ ·))).toList ++ rest) := by
      cases names with
      | nil =>
        subst hrest
        simpa using separated_of_sign hword hslash hstar
      | cons n' names =>
        rw [List.map_cons, String.join_cons, String.append_assoc, String.toList_append,
          List.append_assoc]
        exact separated_of_isBlank (d := ' ') rfl
    have hblank : [' '].all isBlank = true := rfl
    -- the blank in front of the name is the gap
    have hcons := Lays.cons hblank hseparated ih
    simpa [String.toList_append] using hcons

/-- The precedence of a rule, in brackets. -/
def displayPrec (g : Grammar) : Option SymbolId → String
  | some id => "[" ++ g.name id ++ "]"
  | none => ""

/-- How the tokens of a precedence stand in what is printed of it. -/
theorem lays_displayPrec (g : Grammar) (prec : Option SymbolId) :
    Lays [] (g.precTokens prec) (g.displayPrec prec).toList := by
  cases prec with
  | none => exact .nil
  | some id =>
    have htext : (g.displayPrec (some id)).toList =
        "[".toList ++ ((g.name id).toList ++ ("]".toList ++ [])) := by
      simp [displayPrec, String.toList_append]
    have hname : Separated (g.name id) ("]".toList ++ []) :=
      show Separated _ (']' :: []) from
        separated_of_sign (by decide) (by decide) (by decide)
    rw [htext]
    exact .tight (separated_of_mark rfl (by decide) (by decide) _) <| .tight hname <|
      .tight (separated_of_mark rfl (by decide) (by decide) _) .nil

/-- How the tokens stand in a printed rule. -/
theorem lays_displayRule (g : Grammar) (r : Rule) :
    Lays [] (g.ruleTokens r) (g.displayRule r).toList := by
  -- what is printed, part by part
  have htext : (g.displayRule r).toList = (g.name r.lhs).toList ++ (":".toList ++
      ((String.join ((r.rhs.map g.name).map (" " ++ ·))).toList ++
        (".".toList ++ (g.displayPrec r.precSymbol).toList))) := by
    rw [displayRule, List.map_map]
    simp only [String.toList_append, List.append_assoc]
    cases r.precSymbol <;> rfl
  have hstop : Lays [] ("." :: g.precTokens r.precSymbol)
      (".".toList ++ (g.displayPrec r.precSymbol).toList) :=
    .tight (separated_of_mark rfl (by decide) (by decide) _) (lays_displayPrec g _)
  have hrhs := lays_rhs (d := '.') rfl (by decide) (by decide) (by decide) hstop
    (r.rhs.map g.name)
  have hlhs (rest : List Char) : Separated (g.name r.lhs) (":".toList ++ rest) :=
    show Separated _ (':' :: rest) from
      separated_of_sign (by decide) (by decide) (by decide)
  rw [htext]
  exact .tight (hlhs _) <| .tight (separated_of_mark rfl (by decide) (by decide) _) hrhs

/-- Each of these is a token. -/
theorem Printable.isToken (h : g.Printable r) : ∀ x ∈ g.ruleTokens r, isToken x = true := by
  have hprec : ∀ x ∈ g.precTokens r.precSymbol, Text.isToken x = true := by
    cases hid : r.precSymbol with
    | none => nofun
    | some id =>
      simp only [precTokens, List.forall_mem_cons]
      exact ⟨by decide, isToken_iff_isTokenShaped.mpr (h.prec id hid), by decide, nofun⟩
  simp only [ruleTokens, List.forall_mem_cons, List.forall_mem_append, List.forall_mem_map]
  -- colon and full stop are tokens of their own
  refine ⟨isToken_iff_isTokenShaped.mpr (Name.isTokenShaped_of_isWord h.lhs), by decide,
    fun id hid => isToken_iff_isTokenShaped.mpr ?_, by decide, hprec⟩
  rcases h.rhs id hid with hword | hquoted
  · exact Name.isTokenShaped_of_isWord hword
  · exact Name.isTokenShaped_of_isQuoted hquoted

/-- The tokens of a printed rule are found in it, and nothing else. -/
theorem Printable.tokenizes (h : g.Printable r) : Tokenizes (g.displayRule r) (g.ruleTokens r) := by
  obtain ⟨ts, t, htexts, htakes, hunread⟩ := Reading.takes_of_lays (lays_displayRule g r) h.isToken
    (t := .ofString (g.displayRule r)) rfl
  obtain ⟨t', hnext⟩ := next_of_gap (t := t) (hunread ▸ .nil)
  exact ⟨ts, t, t', htakes, hnext, htexts⟩

/-! ## What the tokens tell -/

/-- The part in front of the first full stop. -/
theorem append_stop_inj {l l' p p' : List String} (hl : ∀ n ∈ l, n ≠ ".") (hl' : ∀ n ∈ l', n ≠ ".")
    (h : l ++ "." :: p = l' ++ "." :: p') : l = l' ∧ p = p' := by
  -- side by side: where one list has its full stop, the other one has it as well
  induction l generalizing l' with
  | nil =>
    cases l' with
    | nil => exact ⟨rfl, (List.cons.inj h).2⟩
    | cons n' l' => exact absurd (List.cons.inj h).1.symm (hl' n' List.mem_cons_self)
  | cons n l ih =>
    cases l' with
    | nil => exact absurd (List.cons.inj h).1 (hl n List.mem_cons_self)
    | cons n' l' =>
      obtain ⟨rfl, hrest⟩ := List.cons.inj h
      obtain ⟨rfl, hp⟩ := ih (List.forall_mem_cons.mp hl).2 (List.forall_mem_cons.mp hl').2 hrest
      exact ⟨rfl, hp⟩

/-- The tokens of a precedence tell the name between the brackets. -/
theorem map_name_of_precTokens {prec prec' : Option SymbolId}
    (h : g.precTokens prec = g'.precTokens prec') : prec.map g.name = prec'.map g'.name := by
  cases prec with
  | none =>
    cases prec' with
    | none => rfl
    | some id' => cases h
  | some id =>
    cases prec' with
    | none => cases h
    | some id' => exact congrArg some (List.cons.inj (List.cons.inj h).2).1

/-- The tokens tell what a rule is made of: the first full stop ends the right-hand side. -/
theorem Printable.eq_of_ruleTokens (h : g.Printable r) (h' : g'.Printable r')
    (heq : g.ruleTokens r = g'.ruleTokens r') :
    g.name r.lhs = g'.name r'.lhs ∧ r.rhs.map g.name = r'.rhs.map g'.name ∧
      r.precSymbol.map g.name = r'.precSymbol.map g'.name := by
  obtain ⟨hlhs, hrest⟩ := List.cons.inj heq
  -- names of right-hand sides are no full stops
  have hstop {g : Grammar} {r : Rule} (h : g.Printable r) : ∀ n ∈ r.rhs.map g.name, n ≠ "." :=
    List.forall_mem_map.mpr fun id hid => Name.ne_stop (h.rhs id hid)
  obtain ⟨hrhs, hprec⟩ := append_stop_inj (hstop h) (hstop h') (List.cons.inj hrest).2
  exact ⟨hlhs, hrhs, map_name_of_precTokens hprec⟩

/-- Rules that are printed alike consist of the same tokens. -/
theorem Printable.ruleTokens_eq (h : g.Printable r) (h' : g'.Printable r')
    (heq : g.displayRule r = g'.displayRule r') : g.ruleTokens r = g'.ruleTokens r' :=
  h.tokenizes.unique (heq ▸ h'.tokenizes)

/-! ## Grammars that were read -/

/-- The analysis prints rules with the names that they have already. -/
theorem Printable.analyze (hg : Fresh g) (h : ∀ r ∈ g.rules, g.Printable r) :
    ∀ r ∈ g.analyze.rules, g.analyze.Printable r := by
  have hname : g.analyze.name = g.name := SymbolTable.name_congr g.enriched_analyze.names
  have hsize : g.analyze.table.size = g.table.size := g.enriched_analyze.size
  rw [hg.rules_analyze]
  refine List.forall_mem_map.mpr fun r hr => ?_
  have hr := h r hr
  -- what lends a rule its precedence is in the rule already
  have hprec (id : SymbolId) (hid : (r.backfilled g.table).precSymbol = some id) :
      r.precSymbol = some id ∨ id ∈ r.rhs := by
    rcases (Option.orElse_eq_some _ _ _).mp hid with hown | ⟨-, hfound⟩
    · exact .inl hown
    · exact .inr (List.mem_of_find?_eq_some hfound)
  constructor
  case inRange =>
    rw [hsize]
    refine ⟨hr.inRange.1, hr.inRange.2.1, fun id hid => ?_⟩
    -- a precedence of its own, or the one of a symbol on the right-hand side
    rcases hprec id hid with hown | hmem
    · exact hr.inRange.2.2 id hown
    · exact hr.inRange.2.1 id hmem
  case lhs => exact hname ▸ hr.lhs
  case rhs => exact hname ▸ hr.rhs
  case prec =>
    intro id hid
    rw [hname]
    rcases hprec id hid with hown | hmem
    · exact hr.prec id hown
    rcases hr.rhs id hmem with hword | hquoted
    · exact Name.isTokenShaped_of_isWord hword
    · exact Name.isTokenShaped_of_isQuoted hquoted

end Grammar

namespace Reading

variable {file text : String}

/-- However a reading ends, what was read were tokens. -/
theorem isTokenShaped_of_ends {r : Run} (hr : Ends file text r) :
    ∀ k ∈ r.tokens, IsTokenShaped k.text.toList := by
  cases hr with
  | finished hfound => exact hfound.takes.isTokenShaped
  | cut hfound => exact hfound.takes.isTokenShaped
  | trailing hfound hnext =>
    exact List.forall_mem_append.mpr ⟨hfound.takes.isTokenShaped,
      List.forall_mem_singleton.mpr (isTokenShaped_of_next hnext)⟩

/-- The rules of a state can be printed if names have the shapes of tokens. -/
theorem Agrees.printable {h : History} {s : State} (hs : Agrees h s) (hh : h.Shaped)
    (hsound : Guarded.Sound s.grammar) {r : Rule} (hr : r ∈ s.grammar.rules) :
    s.grammar.Printable r := by
  obtain ⟨a, ha, hra⟩ := exists_of_mem_left hs.rules hr
  have ha := History.mem_alternatives ha
  -- a number of the history is printed as its name
  have hname {id : SymbolId} {n : String} (hid : Numbers h.names id n) : s.grammar.name id = n :=
    SymbolTable.name_eq_of_names (hs.names ▸ hid)
  have hshape {id : SymbolId} {n : String} (hid : Numbers h.names id n) :
      IsTokenShaped n.toList :=
    hh.mention n (History.mem_names.mp (List.mem_of_getElem? hid))
  constructor
  case inRange =>
    exact ⟨(hsound.inRange r hr).1, (hsound.inRange r hr).2, hsound.prec r hr⟩
  case lhs =>
    rw [hname hra.lhs]
    exact Name.isWord_of_isNonterminal (hs.known.lhs a ha).2
  case rhs =>
    intro id hid
    obtain ⟨n, hn, hnumber⟩ := exists_of_mem_left hra.rhs hid
    rw [hname hnumber]
    exact Name.isWord_or_isQuoted_of_isSymbol (hshape hnumber) (hh.symbol a ha n hn)
  case prec =>
    intro id hid
    obtain ⟨n, -, hnumber⟩ := exists_of_rel_some (hid ▸ hra.prec)
    rw [hname hnumber]
    exact hshape hnumber

/-- Whatever is accepted, its rules can be printed, before and after the analysis. -/
theorem printable_of_parse {d : Document} (hparse : parse file text = .ok (.ok d)) :
    ∀ g ∈ [d.grammar, d.grammar.analyze], ∀ r ∈ g.rules, g.Printable r := by
  obtain ⟨run, hread, hd⟩ := exists_readText_of_parse hparse
  obtain ⟨run', hread', hends⟩ := exists_ends file text
  rw [hread, Except.ok.injEq] at hread'
  subst hread'
  have hrules : ∀ r ∈ d.grammar.rules, d.grammar.Printable r := by
    rw [Guarded.grammar_of_outcome hd]
    exact fun r => (Guarded.agrees_of_ends hends).printable
      (shaped_ofTokens file (isTokenShaped_of_ends hends))
      (Guarded.trusted_of_readText hread).sound
  -- the analysis starts from the grammar that was read
  have hfresh := Guarded.fresh_of_outcome hread hd
  simp only [List.forall_mem_cons]
  exact ⟨hrules, Grammar.Printable.analyze hfresh hrules, nofun⟩

/-- Printed rules can be read back. Whatever the text is, if it is accepted, with or without
diagnostics, each rule of its grammar is printed without a fault, before and after the analysis, and
the tokens of what is printed are the names of the rule with the signs between them. Rules that are
printed alike say the same, also if they come from different texts. -/
theorem displayRule_reads_back {d : Document} (hparse : parse file text = .ok (.ok d)) :
    ∀ g ∈ [d.grammar, d.grammar.analyze], ∀ r ∈ g.rules,
      Guarded.displayRule g r = .ok (g.displayRule r) ∧
      Tokenizes (g.displayRule r) (g.ruleTokens r) ∧
      ∀ (file' text' : String) (d' : Document), parse file' text' = .ok (.ok d') →
        ∀ g' ∈ [d'.grammar, d'.grammar.analyze], ∀ r' ∈ g'.rules,
          g.displayRule r = g'.displayRule r' →
            g.name r.lhs = g'.name r'.lhs ∧ r.rhs.map g.name = r'.rhs.map g'.name ∧
              r.precSymbol.map g.name = r'.precSymbol.map g'.name := by
  intro g hg r hr
  have hprintable := printable_of_parse hparse g hg r hr
  obtain ⟨hlhs, hrhs, hprec⟩ := hprintable.inRange
  refine ⟨Guarded.displayRule_eq_ok hlhs hrhs hprec, hprintable.tokenizes, ?_⟩
  intro file' text' d' hparse' g' hg' r' hr' heq
  have hprintable' := printable_of_parse hparse' g' hg' r' hr'
  exact hprintable.eq_of_ruleTokens hprintable' (hprintable.ruleTokens_eq hprintable' heq)

/-- The document of a text whose rules bind as tightly as a literal and as a lone slash. -/
def slashed : Document where
  grammar :=
    { table :=
        { symbols :=
            [{ Symbol.ofName "'.'" with precedence := some 0, assoc := .left },
             { Symbol.ofName "/" with precedence := some 1, assoc := .left },
             { Symbol.ofName "e" with firstRule := some 1 },
             .ofName "A"]
          stale := true
          terminals := 3
          nonterminals := 1 }
      rules := [⟨2, 1, [2, 0, 2], none, none, none⟩, ⟨2, 1, [3], none, some 1, some 0⟩]
      importCode := some ⟨"", 1⟩ }
  errors := []

/-- Neither the full stop in a literal nor a lone slash stands in the way. -/
theorem displayRule_reads_back_slashed :
    parse "stop.y" "%{%}%left '.'%left /%%e:e '.' e|A %prec /;" = .ok (.ok slashed) ∧
      Tokenizes "e: e '.' e.['.']" ["e", ":", "e", "'.'", "e", ".", "[", "'.'", "]"] ∧
      Tokenizes "e: A.[/]" ["e", ":", "A", ".", "[", "/", "]"] := by
  have hparse : parse "stop.y" "%{%}%left '.'%left /%%e:e '.' e|A %prec /;" =
      .ok (.ok slashed) := by rfl
  -- the first rule takes its precedence from the literal on its right-hand side
  have hrules : slashed.grammar.analyze.rules =
      [⟨2, 1, [2, 0, 2], none, some 0, none⟩, ⟨2, 1, [3], none, some 1, some 0⟩] := by rfl
  have hread := displayRule_reads_back hparse slashed.grammar.analyze (by simp)
  rw [hrules] at hread
  exact ⟨hparse, (hread _ List.mem_cons_self).2.1,
    (hread _ (List.mem_cons_of_mem _ List.mem_cons_self)).2.1⟩

end Reading

end YaccGrammar
