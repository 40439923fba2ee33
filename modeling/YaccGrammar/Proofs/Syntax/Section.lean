import YaccGrammar.Proofs.Syntax.Acceptance
import YaccGrammar.Proofs.Syntax.Repeats

/-!
# Sections of rules

Rules that are read behind anything else, be it with or without diagnostics. Tokens that spell rules
are read as they are meant from every state that waits for a rule, and nothing in them is out of
place except that empty alternatives may be repeated.

## Main statements

- `Follows.of_steps`: steps are made behind diagnostics as well.
- `Follows.rules`: what tokens that spell rules leave behind.
-/

namespace YaccGrammar.Reading

variable {before : List Diagnostic} {w w' : Record} {phase phase' : Phase} {s : State}
  {ts : List Token} {a : Alternative}

/-! ## Behind diagnostics -/

/-- The state without its diagnostics. -/
def State.silent (s : State) : State := { s with errors := [] }

/-- Diagnostics that are added to a silent state can be taken away again. -/
theorem State.silent_amend {s : State} (h : s.errors = []) (before : List Diagnostic) :
    (s.amend before id).silent = s := by
  obtain ⟨file, phase, keyword, tag, openRule, next, grammar, errors⟩ := s
  subst h
  rfl

/-- Reading has got as far as the record says, and since the given diagnostics nothing was out of
place but repeated empty alternatives. Of each left-hand side all of these were reported but one. -/
structure Follows (before : List Diagnostic) (w : Record) (phase : Phase) (s : State) : Prop where
  stands : Stands w phase s.silent
  errors : ∃ repeats : List Diagnostic,
    s.errors = before ++ repeats ∧ ∀ d ∈ repeats, d.problem.isRepeat = true
  count : ∀ n, s.errors.countP (Diagnostic.isRepeatOf n) = w.closings.countP (isEmptyOf n) - 1

/-- The empty alternatives of the record are those of the history. -/
theorem countP_closings (h : History) (n : String) :
    h.record.closings.countP (isEmptyOf n) = h.closed.countP (Closed.isEmptyOf n) :=
  List.countP_map

/-- Any tokens may stand in front of a section. -/
theorem follows_consumeAll (file : String) (ts : List Token) :
    Follows (consumeAll ts (.initial file)).errors (History.ofTokens file ts).record
      (consumeAll ts (.initial file)).phase (consumeAll ts (.initial file)) where
  stands := by
    have hagrees := agrees_consumeAll file ts
    exact ⟨⟨_, hagrees.of_core rfl hagrees.inRule, rfl⟩, rfl, rfl⟩
  errors := ⟨[], (List.append_nil _).symm, nofun⟩
  count := by
    intro n
    rw [countP_closings]
    exact countP_repeats_consumeAll file ts n

/-- The record with some more rules. -/
def Record.addRules (w : Record) (rs : List RuleGroup) : Record :=
  { w with
    mentions := w.mentions ++ rs.flatMap RuleGroup.mentions
    closings := w.closings ++ rs.flatMap RuleGroup.closings
    current := none }

namespace Follows

/-- What is read without a diagnostic, and closes no alternative, adds none to those that are there.
-/
theorem of_steps (hs : Follows before w phase s) (hsteps : Steps w phase ts w' phase')
    (hclosings : w'.closings = w.closings) : Follows before w' phase' (consumeAll ts s) := by
  have hsilent := hs.stands.of_steps hsteps
  have hread : consumeAll ts s = (consumeAll ts s.silent).amend s.errors id :=
    consumeAll_eq_amend ts s
  -- the diagnostics from before are put in front of none
  have herrors : (consumeAll ts s).errors = s.errors := by
    rw [hread, State.amend, hsilent.errors, List.append_nil]
  refine ⟨?_, ?_, ?_⟩
  · rw [hread, State.silent_amend hsilent.errors]
    exact hsilent
  · rw [herrors]
    exact hs.errors
  · rw [herrors, hclosings]
    exact hs.count

/-- A mark closes an alternative, be it the first empty one or not. -/
theorem closing {followed : Bool} {t : Token} (hs : Follows before w phase s)
    (hphase : phase = .ruleBody ∨ phase = .afterPrec) (ha : w.current = some a)
    (ht : t.text = closingMark followed) :
    Follows before
      { w with
        closings := w.closings ++ [(a, followed)]
        current := if followed then some { lhs := a.lhs } else none }
      (if followed then .ruleBody else .ruleHead) (consume t s) := by
  obtain ⟨h, k, r, hh, rfl, hcurrent, hopen, -, -⟩ := hs.stands.exists_rule ha
  have hphase' : s.silent.phase = .ruleBody ∨ s.silent.phase = .afterPrec :=
    hs.stands.phase.symm ▸ hphase
  -- the token is a bar or a semicolon, and is used up at once
  obtain ⟨s', hreact, hmark, hnext, hrecord⟩ : ∃ s', react t s.silent = .done s' ∧
      (t.is '|' = true ∨ t.is ';' = true) ∧ s'.phase = (if followed then .ruleBody else .ruleHead) ∧
      (h.observe phase t).record = { h.record with
        closings := h.record.closings ++ [(a, followed)]
        current := if followed then some { lhs := a.lhs } else none } := by
    cases followed with
    | true =>
      have hbar : t.is '|' = true := Token.is_of_text (by rw [ht]; rfl)
      refine ⟨_, react_of_bar hphase' hopen hbar, .inl hbar, rfl, ?_⟩
      rw [observe_of_bar hphase hcurrent hbar]
      simp [History.record, History.close, History.openAt, Closed.byBar, hbar]
    | false =>
      have hsemicolon : t.is ';' = true := Token.is_of_text (by rw [ht]; rfl)
      have hbar : t.is '|' = false := Token.is_eq_false_of_is hsemicolon (by decide)
      refine ⟨_, react_of_semicolon hphase' hopen hsemicolon, .inr hsemicolon, rfl, ?_⟩
      rw [observe_of_semicolon hphase hcurrent hsemicolon]
      simp [History.record, History.close, Closed.byBar, hbar]
  have hconsume : consume t s.silent = s' := by rw [consume, hreact]
  -- the token is observed as it is read
  have hagrees : Agrees (h.observe phase t) s' := by
    have hread := agrees_consume hh t
    rwa [History.read, hreact, hconsume, hs.stands.phase] at hread
  have herrors : s'.errors = Closed.repeated s.file h.closed ⟨a, t⟩ := by
    have hclosing := errors_of_closing hh hphase' hcurrent hmark
    rwa [hreact] at hclosing
  -- with the diagnostics from before, all of this happens just the same
  have hwhole : consume t s = s'.amend s.errors id := by
    rw [← hconsume, ← consume_amend t fun _ => rfl]
    simp [State.amend, State.silent]
  rw [hwhole]
  refine ⟨⟨⟨h.observe phase t, hagrees.of_core rfl hagrees.inRule, hrecord⟩, hnext, rfl⟩, ?_, ?_⟩
  · obtain ⟨repeats, hbefore, hrepeats⟩ := hs.errors
    refine ⟨repeats ++ s'.errors, ?_, List.forall_mem_append.mpr ⟨hrepeats, ?_⟩⟩
    · rw [← List.append_assoc, ← hbefore]
      rfl
    · rw [herrors, Closed.repeated]
      split
      · exact List.forall_mem_singleton.mpr rfl
      · exact List.forall_mem_nil _
  · -- an empty alternative adds one diagnostic exactly if there was one before
    intro n
    have hbefore := hs.count n
    rw [State.amend, List.countP_append, hbefore, herrors, countP_repeated, List.countP_append,
      countP_closings]
    have hone : [(a, followed)].countP (isEmptyOf n) = if Closed.isEmptyOf n ⟨a, t⟩ then 1 else 0 :=
      List.countP_singleton ..
    rw [hone]
    have hany : h.closed.any (Closed.isEmptyOf n) =
        decide (0 < h.closed.countP (Closed.isEmptyOf n)) := by
      rw [Bool.eq_iff_iff, List.any_eq_true, decide_eq_true_eq, List.countP_pos_iff]
    rw [hany]
    cases Closed.isEmptyOf n ⟨a, t⟩ with
    | false => simp
    | true =>
      simp only [Bool.true_and, decide_eq_true_eq, if_true]
      split <;> omega

/-! ## Rules -/

/-- An alternative with the mark that closes it. -/
theorem branch {b : Branch} {lhs : String} {followed : Bool} (hs : Follows before w .ruleBody s)
    (hb : ClosedBy (b, followed) ts) (ha : w.current = some { lhs })
    (hknown : b.prec.all (w.mentions ++ b.symbols).contains = true) :
    Follows before
      { w with
        mentions := w.mentions ++ b.symbols
        closings := w.closings ++ [(b.alternative lhs, followed)]
        current := if followed then some { lhs } else none }
      (if followed then .ruleBody else .ruleHead) (consumeAll ts s) := by
  obtain ⟨hb, hmark⟩ := hb
  obtain ⟨phase, hphase, hsteps⟩ := Steps.branch hb ha hknown
  rw [consumeAll_append]
  exact (hs.of_steps hsteps rfl).closing hphase rfl hmark

/-- The alternatives of a rule. -/
theorem branches {lhs : String} {bs : List Branch} (hs : Follows before w .ruleBody s)
    (hne : bs ≠ []) (hbs : Spelled ClosedBy (marked bs) ts) (ha : w.current = some { lhs })
    (hknown : branchesKnow w.mentions bs = true) :
    Follows before
      { w with
        mentions := w.mentions ++ bs.flatMap Branch.symbols
        closings := w.closings ++ (marked bs).map fun p => (p.1.alternative lhs, p.2)
        current := none } .ruleHead (consumeAll ts s) := by
  induction bs generalizing w ts s with
  | nil => contradiction
  | cons b bs ih =>
    rw [branchesKnow, Bool.and_eq_true] at hknown
    cases bs with
    | nil =>
      -- a semicolon closes the last alternative
      obtain ⟨⟩ | ⟨hb, ⟨⟩⟩ := hbs
      rw [List.append_nil, List.flatMap_singleton]
      exact hs.branch hb ha hknown.1
    | cons b' bs =>
      -- a bar closes this one and opens the next
      obtain ⟨⟩ | ⟨hb, hbs⟩ := hbs
      have hrest := ih (hs.branch hb ha hknown.1) (List.cons_ne_nil _ _) hbs rfl hknown.2
      rw [List.append_assoc, List.append_assoc] at hrest
      rw [consumeAll_append]
      exact hrest

/-- A rule, from its left-hand side to its semicolon. -/
theorem rule {r : RuleGroup} (hs : Follows before w .ruleHead s) (hr : r.SpelledBy ts)
    (hknown : branchesKnow (w.mentions ++ [r.lhs]) r.branches = true) :
    Follows before
      { w with
        mentions := w.mentions ++ r.mentions
        closings := w.closings ++ r.closings
        current := none } .ruleHead (consumeAll ts s) := by
  obtain ⟨hlhs, hcolon, hne, hbranches⟩ := hr
  rename_i bs lhs colon ts
  -- the left-hand side opens an alternative, and the colon leads to its body
  have hhead := hs.of_steps (.cons (.head hlhs) (.cons (.colon hcolon) .nil)) rfl
  have hrest := hhead.branches hne hbranches rfl hknown
  rw [List.append_assoc] at hrest
  exact hrest

/-- Tokens that spell rules are read as they are meant. -/
theorem rules {rs : List RuleGroup} (hs : Follows before w .ruleHead s)
    (hcurrent : w.current = none)
    (hrs : Spelled RuleGroup.SpelledBy rs ts) (hknown : rulesKnow w.mentions rs = true) :
    Follows before (w.addRules rs) .ruleHead (consumeAll ts s) := by
  induction hrs generalizing w s with
  | nil =>
    rw [Record.addRules, List.flatMap_nil, List.flatMap_nil, List.append_nil, List.append_nil,
      ← hcurrent]
    exact hs
  | cons hr _ ih =>
    rw [rulesKnow, Bool.and_eq_true] at hknown
    have hrest := ih (hs.rule hr hknown.1) rfl hknown.2
    rw [Record.addRules, List.append_assoc, List.append_assoc] at hrest
    rw [consumeAll_append]
    exact hrest

end Follows

end YaccGrammar.Reading
