import YaccGrammar.Proofs.Reading.Document
import YaccGrammar.Proofs.Reading.Effect
import YaccGrammar.Proofs.Reading.Ending
import YaccGrammar.Proofs.Reading.Parts
import YaccGrammar.Proofs.Undefined

/-!
# The outcome of reading

Every text yields either a document or a list of diagnostics. A document has rules and a
nonterminal to start from, and nothing that was reported about it is fatal; a list of diagnostics
ends with its only fatal one.

## Main statements

- `rules_ne_nil_of_part`: behind the rules there is a rule.
- `exists_start`: a grammar with rules has a nonterminal to start from.
- `parse_outcome`: which of the two a text yields, and what is true of it then.
-/

namespace YaccGrammar

namespace Reading

variable {s : State} {file text : String}

/-! ## Behind the rules -/

/-- The trailing code is reached only from a rule on. -/
theorem rules_ne_nil_react (t : Token) (hs : s.phase.part = 3 → s.grammar.rules ≠ [])
    (h : (react t s).state.phase.part = 3) : (react t s).state.grammar.rules ≠ [] := by
  have hgrow := rules_length_le_of_edits (effect_react t s).grammar
  have hkeep (hrules : s.grammar.rules ≠ []) : (react t s).state.grammar.rules ≠ [] := by
    have hpos := List.length_pos_iff.mpr hrules
    exact List.length_pos_iff.mp (by omega)
  apply hkeep
  -- the trailing code is reached from no phase, from the head of a rule, or from itself
  have hfrom : (∀ q ∈ s.phase.next, q.part ≠ 3) ∨ s.phase = .ruleHead ∨ s.phase.part = 3 := by
    cases s.phase <;> decide
  rcases hfrom with hnone | hhead | hpart
  · exact absurd h (hnone _ (phase_react_mem t s))
  · -- a file does not leave its rules before the first one
    simp only [react, hhead, reactRuleHead, Reaction.state] at h
    split at h
    · split at h
      · simp [State.report, hhead, Phase.part] at h
      · next hrules => simpa using hrules
    · split at h <;> simp [State.goto, Phase.part] at h
  · exact hs hpart

/-- Behind the rules there is a rule, whatever the tokens were. -/
theorem rules_ne_nil_of_part (ts : List Token)
    (h : (consumeAll ts (.initial file)).phase.part = 3) :
    (consumeAll ts (.initial file)).grammar.rules ≠ [] := by
  let P (s : State) : Prop := s.phase.part = 3 → s.grammar.rules ≠ []
  have hinitial : P (.initial file) := nofun
  exact consumeAll_induction (P := P) (fun t s => rules_ne_nil_react t) ts hinitial h

/-! ## Start symbols -/

/-- What `%start` accepts is the name of a nonterminal. -/
theorem DeclEntry.isNonterminal_of_start? {entries : List DeclEntry} {n : String}
    (h : DeclEntry.start? entries = some n) : Name.isNonterminal n = true := by
  obtain ⟨e, he, rfl⟩ := Option.map_eq_some_iff.mp h
  have hfound := List.find?_some he
  rw [Bool.and_eq_true] at hfound
  exact hfound.2

/-- A grammar with rules has a nonterminal to start from. -/
theorem Agrees.exists_start {h : History} (hs : Agrees h s) (hrules : s.grammar.rules ≠ []) :
    ∃ id x, s.grammar.start? = some id ∧ s.grammar.table.get? id = some x ∧
      x.isTerminal = false := by
  -- a number of an accepted name is that of a nonterminal
  have hnumber {id : SymbolId} {n : String} (hid : Numbers h.names id n)
      (hname : Name.isNonterminal n = true) :
      ∃ x, s.grammar.table.get? id = some x ∧ x.isTerminal = false := by
    rw [← hs.names, Numbers, SymbolTable.names_getElem?] at hid
    obtain ⟨x, hx, rfl⟩ := Option.map_eq_some_iff.mp hid
    exact ⟨x, hx, hs.isTerminal_eq_false hx hname⟩
  have hdeclared := hs.declaredStart
  cases hstart : s.grammar.declaredStart with
  | some id =>
    rw [hstart] at hdeclared
    obtain ⟨n, hentry, hid⟩ : ∃ n, DeclEntry.start? h.entries = some n ∧ Numbers h.names id n := by
      generalize DeclEntry.start? h.entries = start at hdeclared
      cases hdeclared with
      | some hid => exact ⟨_, rfl, hid⟩
    obtain ⟨x, hx, hterminal⟩ := hnumber hid (DeclEntry.isNonterminal_of_start? hentry)
    exact ⟨id, x, by simp [Grammar.start?, hstart], hx, hterminal⟩
  | none =>
    -- without a declaration it is the left-hand side of the first rule
    obtain ⟨r, rules, hr⟩ := List.exists_cons_of_ne_nil hrules
    obtain ⟨a, ha, hra⟩ := exists_of_mem_left hs.rules (hr ▸ List.mem_cons_self)
    obtain ⟨x, hx, hterminal⟩ :=
      hnumber hra.lhs (hs.known.lhs a (History.mem_alternatives ha)).2
    refine ⟨r.lhs, x, ?_, hx, hterminal⟩
    simp [Grammar.start?, hstart, hr]

/-! ## Diagnostics -/

/-- Nothing that is reported about tokens is fatal. -/
theorem isFatal_of_mem_errors {ts : List Token} {d : Diagnostic}
    (h : d ∈ (consumeAll ts (.initial file)).errors) : d.isFatal = false :=
  ((effect_consumeAll ts (.initial file)).2 d h).resolve_left (List.not_mem_nil)

/-- Nothing that comes with a document is fatal. -/
theorem isFatal_of_mem_document {ts : List Token} {g : Grammar} {name : String} {d : Diagnostic}
    (h : d ∈ (consumeAll ts (.initial file)).errors ++ g.verify name) : d.isFatal = false := by
  rcases List.mem_append.mp h with htokens | hverify
  · exact isFatal_of_mem_errors htokens
  · exact Grammar.isFatal_of_mem_verify hverify

/-! ## Texts -/

/-- A document that can be used: it has rules and a nonterminal to start from, and nothing about it
is fatal. -/
structure Document.Usable (d : Document) : Prop where
  rules : d.grammar.rules ≠ []
  start : ∃ id x, d.grammar.start? = some id ∧ d.grammar.table.get? id = some x ∧
    x.isTerminal = false
  errors : ∀ e ∈ d.errors, e.isFatal = false

/-- The diagnostics of a reading that was given up: only the last one is fatal, and it tells what is
not closed or what is missing. -/
def GivenUp (errors : List Diagnostic) : Prop :=
  ∃ before last, errors = before ++ [last] ∧ (∀ e ∈ before, e.isFatal = false) ∧
    last.isFatal = true ∧
    ((∃ what, last.problem = .unterminated what) ∨ ∃ phase, last.problem = .unexpectedEnd phase)

/-- Something in the text is not closed, in front of the trailing code. -/
def Unclosed (file text : String) : Prop :=
  ∃ ts t t' what, Found file text ts t ∧ t.next = .ok (.cut what, t')

/-- The tokens of the text do not lead to a state in which it may end. -/
def Incomplete (file text : String) : Prop :=
  ∃ ts t t', Found file text ts t ∧ t.next = .ok (.nothing, t') ∧
    (consumeAll ts (.initial file)).isComplete = false

/-- Where a file may end, reading is between two rules or in the trailing code. -/
theorem phase_of_isComplete (h : s.isComplete = true) :
    s.phase = .ruleHead ∨ s.phase = .trailer := by
  unfold State.isComplete at h
  cases hphase : s.phase with
  | ruleHead => exact .inl rfl
  | trailer => exact .inr rfl
  | _ => simp [hphase] at h

/-- Where a file may end, no rule is open, and there is a grammar that can be used. -/
theorem usable_of_isComplete {ts : List Token}
    (h : (consumeAll ts (.initial file)).isComplete = true) :
    (consumeAll ts (.initial file)).openRule = none ∧
      (consumeAll ts (.initial file)).grammar.rules ≠ [] ∧
      ∃ id x, (consumeAll ts (.initial file)).grammar.start? = some id ∧
        (consumeAll ts (.initial file)).grammar.table.get? id = some x ∧ x.isTerminal = false := by
  have hs := agrees_consumeAll file ts
  have hphase := phase_of_isComplete h
  have hout : (consumeAll ts (.initial file)).phase.inRule = false := by
    rcases hphase with hphase | hphase <;> simp [hphase, Phase.inRule]
  -- between two rules this is part of being complete, and behind them it was checked before
  have hrules : (consumeAll ts (.initial file)).grammar.rules ≠ [] := by
    rcases hphase with hphase | hphase
    · simpa [State.isComplete, hphase] using h
    · exact rules_ne_nil_of_part ts (by rw [hphase]; rfl)
  exact ⟨hs.openRule_eq_none (hs.current_eq_none hout), hrules, hs.exists_start hrules⟩

namespace Ends

variable {r : Run}

/-- What was read to its end is given up where the text is not closed or not complete. -/
theorem outcome_eq_error_iff (hr : Ends file text r) (hread : readText file text = .ok r) :
    (∃ es, r.outcome = .error es) ↔ Unclosed file text ∨ Incomplete file text := by
  constructor
  · rintro ⟨es, hes⟩
    cases hr with
    | finished hfound hnext =>
      refine .inr ⟨_, _, _, hfound, hnext, Bool.eq_false_iff.mpr fun hcomplete => ?_⟩
      simp [Run.outcome, hcomplete] at hes
    | cut hfound hnext => exact .inl ⟨_, _, _, _, hfound, hnext⟩
    -- a text with trailing code is complete, so it is never given up
    | trailing hfound hnext htrailer =>
      simp [Run.outcome, isComplete_setTrailer htrailer] at hes
  · -- the run is the one that the tokens tell
    rintro (⟨ts, t, t', what, hfound, hnext⟩ | ⟨ts, t, t', hfound, hnext, hincomplete⟩)
    · rw [hfound.readText_of_cut hnext, Except.ok.injEq] at hread
      subst hread
      exact ⟨_, rfl⟩
    · rw [hfound.readText_of_nothing hnext, Except.ok.injEq] at hread
      subst hread
      simp [Run.outcome, hincomplete]

/-- What was read to its end and not given up is a grammar that can be used. -/
theorem usable (hr : Ends file text r) {d : Document} (hd : r.outcome = .ok d) :
    d.Usable ∧ (r.state.phase = .ruleHead ∨ r.state.phase = .trailer) ∧
      r.state.openRule = none := by
  cases hr with
  | @finished ts t t' hfound hnext =>
    have hcomplete : (consumeAll ts (.initial file)).isComplete = true := by
      by_contra hincomplete
      simp [Run.outcome, hincomplete] at hd
    simp only [Run.outcome, hcomplete, Option.isNone_none, Bool.and_true, if_true,
      Except.ok.injEq] at hd
    subst hd
    obtain ⟨hopen, hrules, hstart⟩ := usable_of_isComplete hcomplete
    exact ⟨⟨hrules, hstart, fun e => isFatal_of_mem_document⟩, phase_of_isComplete hcomplete, hopen⟩
  | cut hfound hnext => cases hd
  | @trailing ts k t t' t'' hfound hnext htrailer =>
    rw [← consumeAll_concat] at htrailer hd ⊢
    obtain ⟨hopen, hrules, hstart⟩ := usable_of_isComplete (isComplete_of_trailer htrailer)
    -- the trailing code is no part of what is looked at
    simp only [Run.outcome, isComplete_setTrailer htrailer, Option.isNone_none, Bool.and_true,
      if_true, Except.ok.injEq] at hd
    subst hd
    exact ⟨⟨hrules, hstart, fun e => isFatal_of_mem_document⟩, .inr htrailer, hopen⟩

/-- What is given up ends with its only fatal diagnostic: something is cut off, or the text ends too
early. -/
theorem givenUp (hr : Ends file text r) {es : List Diagnostic} (hes : r.outcome = .error es) :
    GivenUp es := by
  cases hr with
  | @finished ts t t' hfound hnext =>
    have hincomplete : (consumeAll ts (.initial file)).isComplete = false :=
      Bool.eq_false_iff.mpr fun hcomplete => by simp [Run.outcome, hcomplete] at hes
    simp only [Run.outcome, Run.errors, hincomplete, Option.isNone_none, Option.isSome_none,
      Bool.and_false, Bool.or_false, if_false, Bool.false_eq_true, Except.error.injEq] at hes
    exact ⟨_, _, hes.symm, fun e => isFatal_of_mem_errors, rfl, .inr ⟨_, rfl⟩⟩
  | @cut ts t t' what hfound hnext =>
    simp only [Run.outcome, Run.errors, Option.isNone_some, Option.isSome_some, Bool.false_and,
      Bool.true_or, if_true, if_false, Bool.false_eq_true, Except.error.injEq] at hes
    exact ⟨_, _, hes.symm, fun e => isFatal_of_mem_errors, rfl, .inl ⟨_, rfl⟩⟩
  | trailing hfound hnext htrailer =>
    simp [Run.outcome, isComplete_setTrailer htrailer] at hes

end Ends

/-- Every text yields a document or a list of diagnostics. In a document that can be used, reading
ended between two rules or in the trailing code, with no rule open; a list of diagnostics ends with
the only fatal one. It is a list of diagnostics just where something is not closed in front of the
trailing code, or where the text ends too early. -/
theorem parse_outcome (file text : String) :
    ∃ r, readText file text = .ok r ∧ parse file text = .ok r.outcome ∧
      (∀ d, r.outcome = .ok d → d.Usable ∧
        (r.state.phase = .ruleHead ∨ r.state.phase = .trailer) ∧ r.state.openRule = none) ∧
      (∀ es, r.outcome = .error es → GivenUp es) ∧
      ((∃ es, r.outcome = .error es) ↔ Unclosed file text ∨ Incomplete file text) := by
  obtain ⟨r, hread, hends⟩ := exists_ends file text
  have hparse : parse file text = .ok r.outcome := by
    rw [parse, hread]
    rfl
  exact ⟨r, hread, hparse, fun d hd => hends.usable hd, fun es hes => hends.givenUp hes,
    hends.outcome_eq_error_iff hread⟩

end Reading

end YaccGrammar
