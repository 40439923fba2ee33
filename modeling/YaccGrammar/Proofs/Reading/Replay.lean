import YaccGrammar.Proofs.Reading.Agreement
import YaccGrammar.Proofs.Token

/-!
# Reading and observing

Whatever the tokens are, the state that reading has reached agrees with their history.

## Main statements

- `Agrees.react`: a reaction keeps state and history in agreement.
- `agrees_consumeAll`: they agree after any list of tokens.
-/

namespace YaccGrammar.Reading

/-! ## Opening and closing alternatives -/

/-- The history in which the open alternative has been closed. -/
def History.close (h : History) (c : Closed) : History :=
  { h with closed := h.closed ++ [c], current := none }

/-- The history in which an alternative has been opened. -/
def History.openAt (h : History) (lhs : String) : History := { h with current := some { lhs } }

/-- Closing an alternative keeps it, unless it is blank and a bar closed it. -/
theorem History.kept_close (h : History) (c : Closed) :
    (h.close c).kept = h.kept ++ if c.isKept then [c.alternative] else [] := by
  -- by whether the alternative is kept
  cases hc : c.isKept with
  | false => simp [kept, close, hc]
  | true => simp [kept, close, hc]

/-- Closing an empty alternative by a bar flags its left-hand side. -/
theorem History.flags_close (h : History) (c : Closed) (n : String) :
    (h.close c).flags n =
      (h.flags n || (c.byBar && c.alternative.symbols.isEmpty && c.alternative.lhs = n)) := by
  simp [flags, close]

/-- The names of an alternative stay known when it is closed. -/
theorem History.Known.close {h : History} (hknown : h.Known) {c : Closed}
    (hc : h.current = some c.alternative) : (h.close c).Known where
  entry := hknown.entry
  lhs := by
    intro a ha
    apply hknown.lhs
    simpa [alternatives, History.close, hc] using ha

/-- An alternative may be opened for a nonterminal that was mentioned. -/
theorem History.Known.openAt {h : History} (hknown : h.Known) {n : String} (hn : n ∈ h.mentions)
    (hnonterminal : Name.isNonterminal n = true) : (h.openAt n).Known where
  entry := hknown.entry
  lhs := by
    intro a ha
    rcases List.mem_append.mp ha with hclosed | hcurrent
    · exact hknown.lhs a (List.mem_append_left _ hclosed)
    · have ha : a = { lhs := n } := by simpa [History.openAt] using hcurrent
      rw [ha]
      exact ⟨hn, hnonterminal⟩

/-- A rule of which only the left-hand side is known matches a new alternative. -/
theorem matches_new {names : List String} {lhs : SymbolId} {n : String} (hlhs : Numbers names lhs n)
    (line : Nat) (nextLhs : Option RuleId) :
    Matches names { lhs, line, nextLhs } { lhs := n } where
  lhs := hlhs
  rhs := .nil
  code := rfl
  prec := .none

/-- A rule has no symbols just if its alternative has none. -/
theorem Matches.isEmpty_rhs {names : List String} {r : Rule} {a : Alternative}
    (hr : Matches names r a) : r.rhs.isEmpty = a.symbols.isEmpty := by
  have hlength := hr.rhs.length_eq
  cases hrhs : r.rhs with
  | nil =>
    rw [hrhs] at hlength
    rw [List.length_eq_zero_iff.mp hlength.symm]
    rfl
  | cons id ids =>
    rw [hrhs] at hlength
    rw [List.isEmpty_cons, eq_comm, List.isEmpty_eq_false_iff]
    intro hnil
    rw [hnil] at hlength
    contradiction

/-- An alternative is blank just if its rule has neither symbols, code nor precedence. -/
theorem Matches.isBlank_iff {names : List String} {r : Rule} {a : Alternative}
    (hr : Matches names r a) :
    a.isBlank = (r.rhs.isEmpty && (r.code.isNone && r.precSymbol.isNone)) := by
  have hrhs := hr.isEmpty_rhs
  have hcode : r.code.isNone = a.code.isNone := by rw [← hr.code, Option.isNone_map]
  have hprec : r.precSymbol.isNone = a.prec.isNone := isNone_eq_of_rel hr.prec
  rw [Alternative.isBlank, hrhs, hcode, hprec, Bool.and_assoc]

/-- A blank alternative is told by its left-hand side. -/
theorem Alternative.eq_of_isBlank {a : Alternative} (ha : a.isBlank = true) :
    a = { lhs := a.lhs } := by
  -- the three fields besides the left-hand side are empty
  obtain ⟨lhs, symbols, code, prec⟩ := a
  simp only [isBlank, Bool.and_eq_true, List.isEmpty_iff, Option.isNone_iff_eq_none] at ha
  obtain ⟨⟨rfl, rfl⟩, rfl⟩ := ha
  rfl

namespace Agrees

variable {h : History} {s s' : State}

/-- A rule that is added opens an alternative. -/
theorem openNew (hs : Agrees h s) (hcurrent : h.current = none) {lhs : SymbolId} {n : String}
    (hlhs : Numbers h.names lhs n) (hnonterminal : Name.isNonterminal n = true) (line : Nat)
    {phase : Phase} (hphase : phase.inRule = true) :
    Agrees (h.openAt n) ((openNew lhs line s).goto phase) := by
  have hrules := hs.rules
  rw [hcurrent, Option.toList_none, List.append_nil] at hrules
  constructor
  case symbols =>
    -- the place in the chain is all that changes
    refine Eq.trans (SymbolTable.map_symbols_modify ?_ _ lhs) hs.symbols
    exact fun _ => rfl
  case stale =>
    intro hsize
    apply hs.stale
    rwa [Reading.openNew, State.goto, Grammar.addRule, SymbolTable.size_modify] at hsize
  case rules => exact List.rel_append hrules (.cons (matches_new hlhs line _) .nil)
  case openRule =>
    show some s.grammar.rules.length = some h.kept.length
    rw [hrules.length_eq]
  case inRule => exact fun _ => hphase
  case known =>
    have hmention := History.mem_names.mp (List.mem_of_getElem? hlhs)
    exact hs.known.openAt hmention hnonterminal
  -- nothing else changes
  case keyword => exact hs.keyword
  case tag => exact hs.tag
  case nextPrecedence => exact hs.nextPrecedence
  case declaredStart => exact hs.declaredStart
  case importCode => exact hs.importCode
  case unionCode => exact hs.unionCode

/-- An alternative that flags nothing leaves the symbols alone. -/
theorem symbol_close_of_not_flagged {c : Closed}
    (hc : (c.byBar && c.alternative.symbols.isEmpty) = false) (n : String) :
    (h.close c).symbol n = h.symbol n := by
  show DeclEntry.symbol h.entries ((h.close c).flags n) n = DeclEntry.symbol h.entries (h.flags n) n
  rw [History.flags_close, hc, Bool.false_and, Bool.or_false]

/-- An empty alternative in front of a bar flags its left-hand side. -/
theorem symbols_flag (hs : Agrees h s) {c : Closed} {id : SymbolId}
    (hid : Numbers h.names id c.alternative.lhs)
    (hc : (c.byBar && c.alternative.symbols.isEmpty) = true) :
    (s.grammar.table.modify id fun x => { x with nullable := true }).symbols.map Symbol.unlinked =
      h.names.map (h.close c).symbol := by
  -- the flagged symbol changes as its name does, and the other ones not at all
  refine SymbolTable.map_modify_eq (v := fun x => { x with nullable := true }) hs.symbols
    (nodup_eraseDups _) hid (fun _ => rfl) ?_ ?_
  · show DeclEntry.symbol h.entries ((h.close c).flags _) _ = _
    rw [History.flags_close, hc]
    simp [History.symbol, DeclEntry.symbol]
  · intro m hm
    show DeclEntry.symbol h.entries ((h.close c).flags m) m =
      DeclEntry.symbol h.entries (h.flags m) m
    rw [History.flags_close, hc]
    simp [Ne.symm hm]

/-- Closing a kept alternative leaves the rules in step with what is kept. -/
theorem rules_close (hs : Agrees h s) {c : Closed} (hcurrent : h.current = some c.alternative)
    (hkept : c.isKept = true) :
    List.Forall₂ (Matches h.names) s.grammar.rules ((h.close c).kept ++ [] ) := by
  rw [History.kept_close, hkept, List.append_nil]
  simpa [hcurrent] using hs.rules

/-- A kept alternative is closed, with a table whose flags are up to date. -/
theorem close_table (hs : Agrees h s) {c : Closed} (hcurrent : h.current = some c.alternative)
    (hkept : c.isKept = true) {table : SymbolTable}
    (hsymbols : table.symbols.map Symbol.unlinked = h.names.map (h.close c).symbol)
    (hstale : 0 < table.size → table.stale = true) :
    Agrees (h.close c) { s with openRule := none, grammar := { s.grammar with table } } where
  keyword := hs.keyword
  tag := hs.tag
  symbols := hsymbols
  stale := hstale
  rules := hs.rules_close hcurrent hkept
  openRule := rfl
  inRule := fun h => nomatch h
  nextPrecedence := hs.nextPrecedence
  declaredStart := hs.declaredStart
  importCode := hs.importCode
  unionCode := hs.unionCode
  known := hs.known.close hcurrent

/-- A kept alternative that flags nothing is closed. -/
theorem close (hs : Agrees h s) {c : Closed} (hcurrent : h.current = some c.alternative)
    (hkept : c.isKept = true) (hc : (c.byBar && c.alternative.symbols.isEmpty) = false) :
    Agrees (h.close c) { s with openRule := none } := by
  refine hs.close_table hcurrent hkept ?_ hs.stale
  rw [funext (symbol_close_of_not_flagged hc)]
  exact hs.symbols

/-- The state in which a symbol has been flagged as nullable. -/
def flagged (id : SymbolId) (s : State) : State :=
  s.modifyGrammar (·.modifyTable (·.modify id fun x => { x with nullable := true }))

/-- A kept alternative that is empty is closed by a bar. -/
theorem close_flagged (hs : Agrees h s) {c : Closed} (hcurrent : h.current = some c.alternative)
    (hkept : c.isKept = true) (hc : (c.byBar && c.alternative.symbols.isEmpty) = true)
    {id : SymbolId} (hid : Numbers h.names id c.alternative.lhs) :
    Agrees (h.close c) { flagged id s with openRule := none } := by
  refine hs.close_table hcurrent hkept (hs.symbols_flag hid hc) ?_
  rw [SymbolTable.size_modify]
  exact hs.stale

/-- A blank alternative is closed by a bar, and its rule is used again. -/
theorem close_blank (hs : Agrees h s) {c : Closed} (hcurrent : h.current = some c.alternative)
    (hblank : c.alternative.isBlank = true) (hbar : c.byBar = true)
    {id : SymbolId} (hid : Numbers h.names id c.alternative.lhs) :
    Agrees ((h.close c).openAt c.alternative.lhs) (flagged id s) := by
  have hempty : c.alternative = { lhs := c.alternative.lhs } := Alternative.eq_of_isBlank hblank
  have hc : (c.byBar && c.alternative.symbols.isEmpty) = true := by
    rw [hbar, hempty]
    rfl
  have hkept : (h.close c).kept = h.kept := by
    simp [History.kept_close, Closed.isKept, hblank, hbar]
  -- the alternative that is opened looks like the one that was closed
  have hreopened : ((h.close c).openAt c.alternative.lhs).current = h.current := by
    rw [hcurrent, hempty]
    rfl
  constructor
  case symbols => exact hs.symbols_flag hid hc
  case stale =>
    intro hsize
    exact hs.stale (by simpa [flagged, State.modifyGrammar, Grammar.modifyTable] using hsize)
  case rules =>
    rw [hreopened]
    show List.Forall₂ (Matches h.names) s.grammar.rules ((h.close c).kept ++ _)
    rw [hkept]
    exact hs.rules
  case openRule =>
    rw [hreopened]
    show s.openRule = h.current.map fun _ => (h.close c).kept.length
    rw [hkept, hs.openRule]
  case inRule =>
    rw [hreopened]
    exact hs.inRule
  case known =>
    have hlhs := hs.known.lhs c.alternative (by simp [History.alternatives, hcurrent])
    exact (hs.known.close hcurrent).openAt hlhs.1 hlhs.2
  -- nothing else changes
  case keyword => exact hs.keyword
  case tag => exact hs.tag
  case nextPrecedence => exact hs.nextPrecedence
  case declaredStart => exact hs.declaredStart
  case importCode => exact hs.importCode
  case unionCode => exact hs.unionCode

end Agrees

/-! ## Reading in a rule -/

/-- A change at the end of a list. -/
theorem modify_concat {α : Type} (l : List α) (a : α) (f : α → α) :
    (l ++ [a]).modify l.length f = l ++ [f a] := by
  induction l with
  | nil => rfl
  | cons b l ih =>
    rw [List.cons_append, List.length_cons, List.modify_succ_cons, ih, List.cons_append]

namespace Agrees

variable {h : History} {s s' : State} {a a' : Alternative} {id : RuleId}

/-- The left-hand side of the open alternative is a nonterminal that was mentioned. -/
theorem lhs (hs : Agrees h s) (hcurrent : h.current = some a) :
    a.lhs ∈ h.mentions ∧ Name.isNonterminal a.lhs = true :=
  hs.known.lhs a (by simp [History.alternatives, hcurrent])

/-- The open rule is there, and it matches the open alternative. -/
theorem rule?_of_openRule (hs : Agrees h s) (hcurrent : h.current = some a)
    (hopen : s.openRule = some id) : ∃ r, s.grammar.rule? id = some r ∧ Matches h.names r a := by
  obtain ⟨rules, r, hrules, hopen', -, hr⟩ := hs.exists_openRule hcurrent
  rw [hopen, Option.some_inj] at hopen'
  refine ⟨r, ?_, hr⟩
  rw [Grammar.rule?, hrules, hopen', List.getElem?_concat_length]

/-- A change of the open rule changes the open alternative. -/
theorem modifyRule (hs : Agrees h s) (hcurrent : h.current = some a)
    (hopen : s.openRule = some id) {f : Rule → Rule}
    (hf : ∀ r, Matches h.names r a → Matches h.names (f r) a') (hlhs : a'.lhs = a.lhs) :
    Agrees { h with current := some a' } (s.modifyGrammar (·.modifyRule id f)) := by
  -- the open rule is the last one, so the change hits no other
  obtain ⟨rules, r, hrules, hopen', hkept, hr⟩ := hs.exists_openRule hcurrent
  rw [hopen, Option.some_inj] at hopen'
  have hmodify : s.grammar.rules.modify id f = rules ++ [f r] := by
    rw [hrules, hopen', modify_concat]
  constructor
  case rules =>
    show List.Forall₂ _ (s.grammar.rules.modify id f) _
    rw [hmodify]
    exact List.rel_append hkept (.cons (hf r hr) .nil)
  case openRule =>
    show s.openRule = some h.kept.length
    rw [hs.openRule, hcurrent]
    rfl
  case inRule => exact fun _ => hs.inRule (by rw [hcurrent]; rfl)
  case known =>
    refine ⟨hs.known.entry, fun b hb => ?_⟩
    rcases List.mem_append.mp hb with hclosed | hb
    · exact hs.known.lhs b (List.mem_append_left _ hclosed)
    · have hb : b = a' := by simpa using hb
      rw [hb, hlhs]
      exact hs.lhs hcurrent
  -- nothing else changes
  case keyword => exact hs.keyword
  case tag => exact hs.tag
  case symbols => exact hs.symbols
  case stale => exact hs.stale
  case nextPrecedence => exact hs.nextPrecedence
  case declaredStart => exact hs.declaredStart
  case importCode => exact hs.importCode
  case unionCode => exact hs.unionCode

/-- The check of an empty alternative changes nothing that is observed. -/
theorem checkEmpty (hs : Agrees h s) (id : RuleId) (lhs : SymbolId) (line : Nat) :
    Agrees h (checkEmpty id lhs line s) := by
  unfold Reading.checkEmpty
  dsimp only
  split
  · exact hs.report _ _
  · exact hs

/-- The check of an empty alternative stays in the phase. -/
theorem phase_checkEmpty (id : RuleId) (lhs : SymbolId) (line : Nat) (s : State) :
    (Reading.checkEmpty id lhs line s).phase = s.phase := by
  unfold Reading.checkEmpty
  dsimp only
  split
  · rfl
  · rfl

/-- A bar closes the open alternative and opens another one with its left-hand side. -/
theorem newAlternative (hs : Agrees h s) (hcurrent : h.current = some a)
    (hopen : s.openRule = some id) {t : Token} (hbar : t.is '|' = true) :
    Agrees ((h.close ⟨a, t⟩).openAt a.lhs) (newAlternative id t.line s) := by
  obtain ⟨r, hrule, hr⟩ := hs.rule?_of_openRule hcurrent hopen
  -- an alternative is open, so this is in a rule
  have hphase : s.phase.inRule = true := hs.inRule (by rw [hcurrent]; rfl)
  have hlhs := (hs.lhs hcurrent).2
  have hclosing : Closed.byBar ⟨a, t⟩ = true := hbar
  have hblank := hr.isBlank_iff
  simp only [Reading.newAlternative, hrule]
  cases hempty : r.rhs.isEmpty with
  | false =>
    -- an alternative with symbols is a rule
    have hkept : Closed.isKept ⟨a, t⟩ = true := by simp [Closed.isKept, hblank, hempty]
    have hflag : (Closed.byBar ⟨a, t⟩ && a.symbols.isEmpty) = false := by
      rw [← hr.isEmpty_rhs, hempty, Bool.and_false]
    exact (hs.close hcurrent hkept hflag).openNew rfl hr.lhs hlhs t.line hphase
  | true =>
    -- an empty one flags its left-hand side, and is a rule only with code or a precedence
    have hchecked := hs.checkEmpty id r.lhs t.line
    rw [← phase_checkEmpty id r.lhs t.line s] at hphase
    have hflag : (Closed.byBar ⟨a, t⟩ && a.symbols.isEmpty) = true := by
      rw [hclosing, ← hr.isEmpty_rhs, hempty, Bool.and_true]
    rw [hempty, Bool.true_and] at hblank
    simp only [if_true]
    cases hunused : r.code.isNone && r.precSymbol.isNone with
    | true => exact hchecked.close_blank hcurrent (hblank.trans hunused) hclosing hr.lhs
    | false =>
      have hkept : Closed.isKept ⟨a, t⟩ = true := by
        simp [Closed.isKept, hblank.trans hunused]
      exact (hchecked.close_flagged hcurrent hkept hflag hr.lhs).openNew rfl hr.lhs hlhs t.line
        hphase

/-- A semicolon closes the open alternative. -/
theorem endRule (hs : Agrees h s) (hcurrent : h.current = some a)
    (hopen : s.openRule = some id) {t : Token} (hbar : t.is '|' = false) :
    Agrees (h.close ⟨a, t⟩) (endRule id t.line s) := by
  obtain ⟨r, hrule, hr⟩ := hs.rule?_of_openRule hcurrent hopen
  have hclosing : Closed.byBar ⟨a, t⟩ = false := hbar
  -- what a semicolon closes is kept and flags nothing
  have hclosed := hs.close (c := ⟨a, t⟩) hcurrent (by simp [Closed.isKept, hclosing])
    (by rw [hclosing, Bool.false_and])
  simp only [Reading.endRule, show { s with openRule := none }.grammar.rule? id = some r from hrule]
  split
  · exact (hclosed.checkEmpty id r.lhs t.line).of_core rfl fun h => nomatch h
  · exact hclosed.of_core rfl fun h => nomatch h

/-- A code block is attached to the open alternative if it has none. -/
theorem attachCode (hs : Agrees h s) (hcurrent : h.current = some a)
    (hopen : s.openRule = some id) (t : Token) :
    Agrees { h with current := some { a with code := a.code <|> some t.text } }
      (attachCode id t s) := by
  obtain ⟨r, hrule, hr⟩ := hs.rule?_of_openRule hcurrent hopen
  simp only [Reading.attachCode, hrule]
  cases hcode : r.code with
  | some block =>
    -- the first block counts
    have hacode : a.code = some block.code := by
      rw [← hr.code, hcode]
      rfl
    have hsame : { a with code := a.code <|> some t.text } = a := by
      obtain ⟨lhs, symbols, code, prec⟩ := a
      subst hacode
      rfl
    rw [hsame, ← hcurrent]
    exact hs.report _ _
  | none =>
    have hacode : a.code = none := by
      rw [← hr.code, hcode]
      rfl
    rw [hacode]
    refine hs.modifyRule hcurrent hopen (fun r' hr' => ?_) rfl
    exact ⟨hr'.lhs, hr'.rhs, rfl, hr'.prec⟩

/-- A word or a literal in the body is mentioned and joins the open alternative. -/
theorem appendSymbol (hs : Agrees h s) (hcurrent : h.current = some a)
    (hopen : s.openRule = some id) (n : String) :
    Agrees { h.mention n with current := some { a with symbols := a.symbols ++ [n] } }
      (appendSymbol id n s) := by
  refine (hs.intern n).modifyRule hcurrent hopen (fun r hr => ?_) rfl
  exact ⟨hr.lhs, List.rel_append hr.rhs (.cons (hs.numbers_intern n) .nil), hr.code, hr.prec⟩

/-- The symbol behind `%prec` becomes that of the open alternative. -/
theorem setPrec (hs : Agrees h s) (hcurrent : h.current = some a) (hopen : s.openRule = some id)
    {n : String} {symbol : SymbolId} (hsymbol : s.grammar.table.find? n = some symbol) :
    Agrees { h with current := some { a with prec := some n } }
      (s.modifyGrammar (·.modifyRule id fun r => { r with precSymbol := some symbol })) := by
  have hnumber : Numbers h.names symbol n := by
    rw [← hs.names]
    exact SymbolTable.names_of_find? hsymbol
  refine hs.modifyRule hcurrent hopen (fun r hr => ?_) rfl
  exact ⟨hr.lhs, hr.rhs, hr.code, .some hnumber⟩

end Agrees

/-! ## Reading in a declaration -/

/-- A declared name adds an entry, which changes its symbol, the count of precedences and the start.
-/
theorem Agrees.declare {h : History} {s : State} (hs : Agrees h s) {k : Keyword} (t : Token)
    {tag : Option String} (hline : h.line = some (k, tag)) :
    Agrees { h.mention t.text with entries := h.entries ++ [⟨k, tag, t.text⟩] }
      (declare k t s) := by
  have hintern := hs.intern t.text
  have hnumber := hs.numbers_intern t.text
  have htag : s.tag = tag := hs.tag k tag hline
  subst htag
  generalize he : (⟨k, s.tag, t.text⟩ : DeclEntry) = e
  obtain ⟨x, hx, hkind⟩ := hs.exists_interned t.text
  obtain ⟨errors, heq, -⟩ := declare_eq he.symm rfl hx hkind
  rw [heq]
  -- the entry changes the symbol of its own name and no other
  have hsymbol (n : String) : ({ h.mention t.text with entries := h.entries ++ [e] }).symbol n =
      if e.name = n then e.apply s.nextPrecedence (h.symbol n) else h.symbol n := by
    rw [hs.nextPrecedence]
    exact DeclEntry.symbol_append h.entries e (h.flags n) n
  have hename : e.name = t.text := by rw [← he]
  constructor
  case symbols =>
    refine SymbolTable.map_modify_eq (v := e.apply s.nextPrecedence) hintern.symbols
      (nodup_eraseDups _) hnumber (fun _ => rfl) ?_ ?_
    · rw [hsymbol, if_pos hename]
      rfl
    · intro m hm
      rw [hsymbol, if_neg (fun h => hm (h.symm.trans hename))]
      rfl
  case stale =>
    intro hsize
    apply hintern.stale
    rwa [SymbolTable.size_modify] at hsize
  case rules => exact hintern.rules
  case nextPrecedence =>
    show s.nextPrecedence + _ = (DeclEntry.ranked (h.entries ++ [e])).length
    rw [DeclEntry.ranked_append, List.length_append, hs.nextPrecedence]
    congr 1
    cases e.ranks <;> rfl
  case declaredStart =>
    show Option.Rel (Numbers (h.mention t.text).names) (s.grammar.declaredStart <|> _) _
    rw [DeclEntry.start?_append]
    refine rel_orElse hintern.declaredStart ?_
    cases e.starts with
    | false => exact .none
    | true => exact .some (hename ▸ hnumber)
  case known =>
    refine ⟨fun e' he' => ?_, hintern.known.lhs⟩
    rcases List.mem_append.mp he' with he' | he'
    · exact hintern.known.entry e' he'
    · rw [List.mem_singleton.mp he', hename]
      exact List.mem_append_right _ (List.mem_singleton_self _)
  -- nothing else changes
  case keyword => exact hintern.keyword
  case tag => exact hintern.tag
  case openRule => exact hintern.openRule
  case inRule => exact hintern.inRule
  case importCode => exact hintern.importCode
  case unionCode => exact hintern.unionCode

/-! ## Reactions -/

namespace Agrees

variable {h : History} {s : State}

/-- Without an open alternative no rule is open. -/
theorem openRule_eq_none (hs : Agrees h s) (hcurrent : h.current = none) : s.openRule = none := by
  rw [hs.openRule, hcurrent]
  rfl

/-- With an open alternative some rule is open. -/
theorem exists_openRule_eq (hs : Agrees h s) {a : Alternative} (hcurrent : h.current = some a) :
    ∃ id, s.openRule = some id := by
  obtain ⟨rules, -, -, hopen, -⟩ := hs.exists_openRule hcurrent
  exact ⟨rules.length, hopen⟩

/-- A declaration begins or ends. -/
theorem setLine (hs : Agrees h s) (hcurrent : h.current = none)
    {line : Option (Keyword × Option String)} {s' : State}
    (hkeyword : s'.keyword = line.map Prod.fst)
    (htag : ∀ k tag, line = some (k, tag) → s'.tag = tag)
    (hcore : { s' with keyword := s.keyword, tag := s.tag }.core = s.core) :
    Agrees { h with line := line } s' := by
  -- keyword and tag apart, the state is the one before
  have hsame : Agrees h { s' with keyword := s.keyword, tag := s.tag } := by
    apply hs.of_core hcore
    rw [hcurrent]
    exact fun h => nomatch h
  exact ⟨hkeyword, htag, hsame.symbols, hsame.stale, hsame.rules, hsame.openRule, hsame.inRule,
    hsame.nextPrecedence, hsame.declaredStart, hsame.importCode, hsame.unionCode,
    ⟨hsame.known.entry, hsame.known.lhs⟩⟩

/-- The code of `%union` is recorded. -/
theorem setUnion (hs : Agrees h s) (block : CodeBlock) :
    Agrees { h with unionCode := some block.code }
      (s.modifyGrammar fun g => { g with unionCode := some block }) :=
  ⟨hs.keyword, hs.tag, hs.symbols, hs.stale, hs.rules, hs.openRule, hs.inRule, hs.nextPrecedence,
    hs.declaredStart, hs.importCode, rfl, ⟨hs.known.entry, hs.known.lhs⟩⟩

/-- The code block of `%union`, of which the first one counts. -/
theorem readUnion (hs : Agrees h s) (hphase : s.phase = .tagOrBlock) (t : Token) :
    Agrees { h with
        line := none
        unionCode := if t.isBlock then h.unionCode <|> some (t.trimmed 1 1) else h.unionCode }
      (readUnion t s).state := by
  have hcurrent := hs.current_eq_none (by rw [hphase]; rfl)
  unfold Reading.readUnion
  cases hblock : t.isBlock with
  | false => exact hs.setLine hcurrent rfl (fun _ _ h => nomatch h) rfl
  | true =>
    simp only [if_true]
    cases hunion : s.grammar.unionCode with
    | some first =>
      -- a second block changes nothing
      have hsame : h.unionCode = some first.code := by
        rw [← hs.unionCode, hunion]
        rfl
      have hended : { h with line := none, unionCode := some first.code } =
          { h with line := none } := by rw [hsame]
      rw [hsame]
      show Agrees { h with line := none, unionCode := some first.code } _
      rw [hended]
      exact hs.setLine hcurrent rfl (fun _ _ h => nomatch h) rfl
    | none =>
      have hnone : h.unionCode = none := by
        rw [← hs.unionCode, hunion]
        rfl
      rw [hnone]
      exact (hs.setUnion ⟨t.trimmed 1 1, t.line⟩).setLine hcurrent rfl (fun _ _ h => nomatch h) rfl

/-- The block at the top. -/
theorem reactImportBlock (hs : Agrees h s) (hphase : s.phase = .importBlock) (t : Token) :
    Agrees (if t.isImportBlock then { h with importCode := some (t.trimmed 1 2) } else h)
      (reactImportBlock t s).state := by
  unfold Reading.reactImportBlock
  split
  · exact ⟨hs.keyword, hs.tag, hs.symbols, hs.stale, hs.rules, hs.openRule,
      fun hcurrent => by simpa [hphase, Phase.inRule] using hs.inRule hcurrent,
      hs.nextPrecedence, hs.declaredStart, rfl, hs.unionCode, ⟨hs.known.entry, hs.known.lhs⟩⟩
  · exact (hs.report _ _).goto (by rw [State.report, hphase]; decide)

/-- The keyword of a declaration. -/
theorem reactKeyword (hs : Agrees h s) (hphase : s.phase = .keyword) (t : Token) :
    Agrees (h.observeKeyword t) (reactKeyword t s).state := by
  have hcurrent := hs.current_eq_none (by rw [hphase]; rfl)
  unfold History.observeKeyword Reading.reactKeyword
  split
  · exact hs.goto (by rw [hphase]; decide)
  · cases hkeyword : Keyword.ofWord? t.text with
    | none => exact hs.setLine hcurrent rfl (fun _ _ h => nomatch h) rfl
    | some k =>
      cases k with
      | prec => exact hs.setLine hcurrent rfl (fun _ _ h => nomatch h) rfl
      | type | token | left | right | nonassoc | start | union =>
        -- the tag of the last declaration is dropped with its keyword
        refine hs.setLine hcurrent rfl (fun k tag hline => ?_) rfl
        cases hline
        rfl

/-- The tag of a declaration, or the block of `%union`. -/
theorem reactTagOrBlock (hs : Agrees h s) (hphase : s.phase = .tagOrBlock) (t : Token) :
    Agrees (h.observeTagOrBlock t) (reactTagOrBlock t s).state := by
  have hcurrent := hs.current_eq_none (by rw [hphase]; rfl)
  have hgoto : Agrees h (s.goto .declaredNames) := hs.goto (by rw [hphase]; decide)
  unfold History.observeTagOrBlock Reading.reactTagOrBlock
  cases hline : h.line with
  | none =>
    have hkeyword : s.keyword = none := by rw [hs.keyword, hline]; rfl
    simp only [hkeyword]
    split
    · contradiction
    · split
      · -- a tag without a keyword counts for nothing
        have hsame : { h with line := none } = h := by rw [← hline]
        rw [← hsame]
        exact hs.setLine hcurrent rfl (fun _ _ h => nomatch h) (by rw [← hkeyword]; rfl)
      · exact hgoto
  | some line =>
    obtain ⟨k, tag⟩ := line
    have hkeyword : s.keyword = some k := by rw [hs.keyword, hline]; rfl
    simp only [hkeyword, Option.some_inj]
    by_cases hunion : k = .union
    · simp only [hunion, if_true]
      exact hs.readUnion hphase t
    · simp only [hunion, if_false]
      split
      · refine hs.setLine hcurrent rfl (fun _ _ h => ?_) (by rw [← hkeyword]; rfl)
        cases h
        rfl
      · exact hgoto

/-- The names of a declaration. -/
theorem reactDeclaredNames (hs : Agrees h s) (hphase : s.phase = .declaredNames) (t : Token) :
    Agrees (h.observeName t) (reactDeclaredNames t s).state := by
  have hcurrent := hs.current_eq_none (by rw [hphase]; rfl)
  unfold History.observeName Reading.reactDeclaredNames
  split
  · exact hs.setLine hcurrent rfl (fun _ _ h => nomatch h) rfl
  · cases hline : h.line with
    | none =>
      have hkeyword : s.keyword = none := by rw [hs.keyword, hline]; rfl
      simp only [hkeyword]
      exact hs
    | some line =>
      have hkeyword : s.keyword = some line.1 := by rw [hs.keyword, hline]; rfl
      simp only [hkeyword]
      split
      · exact hs.report _ _
      · have hdeclared := hs.declare t hline
        rw [History.mention, hline] at hdeclared
        exact hdeclared

/-- The left-hand side of a rule, or the mark behind the rules. -/
theorem reactRuleHead (hs : Agrees h s) (hphase : s.phase = .ruleHead) (t : Token) :
    Agrees (h.observeHead t) (reactRuleHead t s).state := by
  have hcurrent := hs.current_eq_none (by rw [hphase]; rfl)
  unfold History.observeHead Reading.reactRuleHead
  cases hmark : t.is '%' with
  | true =>
    have hname := Token.isNonterminal_eq_false_of_is hmark (by decide)
    simp only [hname, if_true, Bool.false_eq_true, if_false]
    split
    · exact hs.report _ _
    · exact hs.goto (by rw [hphase]; decide)
  | false =>
    cases hname : Name.isNonterminal t.text with
    | true =>
      exact (hs.intern t.text).openNew hcurrent (hs.numbers_intern t.text) hname t.line rfl
    | false =>
      -- what is skipped leaves no rule open
      have hopen := hs.openRule_eq_none hcurrent
      refine hs.of_core (by rw [← hopen]; rfl) ?_
      rw [hcurrent]
      exact fun h => nomatch h

/-- The body of a rule. -/
theorem reactRuleBody (hs : Agrees h s) (t : Token) :
    Agrees (h.observeAlternative true t) (reactRuleBody t s).state := by
  unfold History.observeAlternative Reading.reactRuleBody
  cases hcurrent : h.current with
  | none =>
    simp only [hs.openRule_eq_none hcurrent]
    split
    · refine hs.of_core rfl ?_
      rw [hcurrent]
      exact fun h => nomatch h
    · exact hs
  | some a =>
    obtain ⟨id, hopen⟩ := hs.exists_openRule_eq hcurrent
    simp only [hopen, Bool.true_and]
    by_cases hbar : t.is '|' = true
    · simp only [hbar, if_true]
      exact hs.newAlternative hcurrent hopen hbar
    · rw [Bool.not_eq_true] at hbar
      -- the observer and the machine ask in different orders, so the marks are told apart first
      by_cases hcode : t.first = '{'
      · have hsemicolon : t.is ';' = false := Token.is_eq_false_of_first (by rw [hcode]; decide)
        simp only [hbar, hsemicolon, hcode, if_true]
        exact hs.attachCode hcurrent hopen t
      · by_cases hsemicolon : t.is ';' = true
        · have hmark : t.is '%' = false := Token.is_eq_false_of_is hsemicolon (by decide)
          simp only [hbar, hsemicolon, hcode, hmark, if_true, if_false]
          exact hs.endRule hcurrent hopen hbar
        · rw [Bool.not_eq_true] at hsemicolon
          by_cases hmark : t.is '%' = true
          · have hname := Token.isSymbol_eq_false_of_is hmark (by decide)
            simp only [hbar, hsemicolon, hcode, hmark, hname, if_true, if_false, Bool.false_eq_true]
            exact hs.goto fun _ => rfl
          · rw [Bool.not_eq_true] at hmark
            simp only [hbar, hsemicolon, hcode, hmark, if_false, Bool.false_eq_true]
            split
            · exact hs.appendSymbol hcurrent hopen t.text
            · exact hs.report _ _

/-- What follows a precedence. -/
theorem reactAfterPrec (hs : Agrees h s) (t : Token) :
    Agrees (h.observeAlternative false t) (reactAfterPrec t s).state := by
  unfold History.observeAlternative Reading.reactAfterPrec
  cases hcurrent : h.current with
  | none =>
    simp only [hs.openRule_eq_none hcurrent]
    exact hs.goto fun _ => rfl
  | some a =>
    obtain ⟨id, hopen⟩ := hs.exists_openRule_eq hcurrent
    simp only [hopen, Bool.false_and]
    -- the machine asks for code first; what begins with a brace is no mark, so the order is free
    by_cases hcode : t.first = '{'
    · have hbar : t.is '|' = false := Token.is_eq_false_of_first (by rw [hcode]; decide)
      have hsemicolon : t.is ';' = false := Token.is_eq_false_of_first (by rw [hcode]; decide)
      simp only [hbar, hsemicolon, hcode, if_true, if_false, Bool.false_eq_true]
      exact hs.attachCode hcurrent hopen t
    · by_cases hbar : t.is '|' = true
      · simp only [hcode, hbar, if_true, if_false]
        exact (hs.newAlternative hcurrent hopen hbar).goto fun _ => rfl
      · rw [Bool.not_eq_true] at hbar
        by_cases hsemicolon : t.is ';' = true
        · simp only [hcode, hbar, hsemicolon, if_true, if_false, Bool.false_eq_true]
          exact hs.endRule hcurrent hopen hbar
        · rw [Bool.not_eq_true] at hsemicolon
          simp only [hcode, hbar, hsemicolon, if_false, Bool.false_eq_true]
          exact hs.report _ _

/-- The symbol behind `%prec`. -/
theorem reactPrecSymbol (hs : Agrees h s) (t : Token) :
    Agrees (h.observePrec t) (reactPrecSymbol t s).state := by
  have hgoto : Agrees h (s.goto .afterPrec) := hs.goto fun _ => rfl
  unfold History.observePrec Reading.reactPrecSymbol
  cases hcurrent : h.current with
  | none =>
    simp only [hgoto.openRule_eq_none hcurrent]
    cases (s.goto .afterPrec).grammar.table.find? t.text with
    | none => exact hgoto.report _ _
    | some symbol => exact hgoto.report _ _
  | some a =>
    obtain ⟨id, hopen⟩ := hs.exists_openRule_eq hcurrent
    simp only [show (s.goto .afterPrec).openRule = some id from hopen]
    cases hfind : (s.goto .afterPrec).grammar.table.find? t.text with
    | none =>
      -- the table knows just the names that were mentioned
      have hunknown : t.text ∉ h.mentions := by
        rw [← History.mem_names, ← hgoto.names]
        exact SymbolTable.find?_eq_none_iff.mp hfind
      simp only [hunknown, if_false]
      exact hgoto.report _ _
    | some symbol =>
      have hknown : t.text ∈ h.mentions := by
        rw [← History.mem_names, ← hgoto.names]
        exact List.mem_of_getElem? (SymbolTable.names_of_find? hfind)
      simp only [hknown, if_true]
      exact hgoto.setPrec hcurrent hopen hfind

/-- A reaction keeps state and history in agreement. -/
theorem react (hs : Agrees h s) (t : Token) : Agrees (h.observe s.phase t) (react t s).state := by
  cases hphase : s.phase with
  | preamble =>
    simp only [History.observe, Reading.react, hphase, Reading.reactPreamble, Reaction.state]
    split
    · exact hs.goto (by rw [hphase]; decide)
    · exact hs.report _ _
  | importBlock =>
    simp only [History.observe, Reading.react, hphase]
    exact hs.reactImportBlock hphase t
  | declaration =>
    simp only [History.observe, Reading.react, hphase, Reading.reactDeclaration, Reaction.state]
    split
    · exact hs.goto (by rw [hphase]; decide)
    · exact hs.report _ _
  | keyword =>
    simp only [History.observe, Reading.react, hphase]
    exact hs.reactKeyword hphase t
  | tagOrBlock =>
    simp only [History.observe, Reading.react, hphase]
    exact hs.reactTagOrBlock hphase t
  | declaredNames =>
    simp only [History.observe, Reading.react, hphase]
    exact hs.reactDeclaredNames hphase t
  | ruleHead =>
    simp only [History.observe, Reading.react, hphase]
    exact hs.reactRuleHead hphase t
  | colon =>
    simp only [History.observe, Reading.react, hphase, Reading.reactColon]
    split
    · exact hs.goto (fun _ => rfl)
    · exact (hs.report _ _).goto (fun _ => rfl)
  | ruleBody =>
    simp only [History.observe, Reading.react, hphase]
    exact hs.reactRuleBody t
  | precKeyword =>
    simp only [History.observe, Reading.react, hphase, Reading.reactPrecKeyword, Reaction.state]
    split
    · exact hs.goto (fun _ => rfl)
    · exact (hs.report _ _).goto (fun _ => rfl)
  | precSymbol =>
    simp only [History.observe, Reading.react, hphase]
    exact hs.reactPrecSymbol t
  | afterPrec =>
    simp only [History.observe, Reading.react, hphase]
    exact hs.reactAfterPrec t
  | trailerMark =>
    simp only [History.observe, Reading.react, hphase, Reading.reactTrailerMark, Reaction.state]
    split
    · exact hs.goto (by rw [hphase]; decide)
    · exact hs.report _ _
  | trailer =>
    simp only [History.observe, Reading.react, hphase, Reading.reactTrailer, Reaction.state]
    exact hs.of_core rfl hs.inRule

end Agrees

/-! ## Lists of tokens -/

/-- A token keeps state and history in agreement, also where it is read again. -/
theorem agrees_consume {h : History} {s : State} (hs : Agrees h s) (t : Token) :
    Agrees (h.read t s) (consume t s) := by
  have hfirst := hs.react t
  unfold History.read consume
  cases hreact : react t s with
  | done s' =>
    rw [hreact] at hfirst
    exact hfirst
  | again s' =>
    -- the token is read a second time, and observed a second time
    rw [hreact] at hfirst
    exact Agrees.react hfirst t

/-- A list of tokens keeps state and history in agreement. -/
theorem agrees_readAll {h : History} {s : State} (hs : Agrees h s) (ts : List Token) :
    Agrees (h.readAll ts s) (consumeAll ts s) := by
  induction ts generalizing h s with
  | nil => exact hs
  | cons t ts ih => exact ih (agrees_consume hs t)

/-- State and history agree after any list of tokens. -/
theorem agrees_consumeAll (file : String) (ts : List Token) :
    Agrees (.ofTokens file ts) (consumeAll ts (.initial file)) :=
  agrees_readAll (agrees_initial file) ts

end YaccGrammar.Reading
