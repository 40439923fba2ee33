import YaccGrammar.Proofs.Reading.Reports
import YaccGrammar.Proofs.Syntax.Silence

/-!
# Repeated empty alternatives

A left-hand side has at most one empty alternative. Earlier ones are remembered in two places, as a
flag where a bar closed them and as a rule otherwise; together these remember every one of them. So
each empty alternative but the first one of its left-hand side is reported when it is closed, and
nothing else is reported as one.

## Main statements

- `repeats_consumeAll`: the repeated empty alternatives that are reported, in order.
- `repeats_of_leftHandSide`: those of one left-hand side, and how many there are.
-/

namespace YaccGrammar

/-- The problem is a repeated empty alternative. -/
def Problem.isRepeat : Problem → Bool
  | repeatedEmptyAlternative _ => true
  | _ => false

namespace Reading

/-! ## What should be reported -/

/-- The alternative is empty and has the given left-hand side. -/
def Closed.isEmptyOf (lhs : String) (c : Closed) : Bool :=
  c.alternative.lhs = lhs && c.alternative.symbols.isEmpty

/-- What is reported when an alternative is closed behind others. -/
def Closed.repeated (file : String) (before : List Closed) (c : Closed) : List Diagnostic :=
  if c.alternative.symbols.isEmpty && before.any (Closed.isEmptyOf c.alternative.lhs) then
    [⟨⟨file, c.closing.line⟩, .repeatedEmptyAlternative c.alternative.lhs⟩]
  else []

/-- What is reported when alternatives are closed one after the other. -/
def repeatsOf (file : String) : List Closed → List Closed → List Diagnostic
  | _, [] => []
  | before, c :: cs => c.repeated file before ++ repeatsOf file (before ++ [c]) cs

/-- The last alternative is compared with all that were closed before it. -/
theorem repeatsOf_concat (file : String) (before cs : List Closed) (c : Closed) :
    repeatsOf file before (cs ++ [c]) =
      repeatsOf file before cs ++ c.repeated file (before ++ cs) := by
  induction cs generalizing before with
  | nil => simp [repeatsOf]
  | cons b cs ih => simp [repeatsOf, ih]

/-- The diagnostic is on an empty alternative of the given left-hand side. -/
def Diagnostic.isRepeatOf (n : String) (d : Diagnostic) : Bool :=
  d.problem = .repeatedEmptyAlternative n

/-- The report that an alternative of a left-hand side repeats its empty alternative. -/
def Closed.repeatOf (file n : String) (c : Closed) : Diagnostic :=
  ⟨⟨file, c.closing.line⟩, .repeatedEmptyAlternative n⟩

/-- An alternative is reported of its own left-hand side, and of no other one. -/
theorem filter_repeated (file : String) (before : List Closed) (c : Closed) (n : String) :
    (c.repeated file before).filter (Diagnostic.isRepeatOf n) =
      if c.isEmptyOf n && before.any (Closed.isEmptyOf n) then [c.repeatOf file n] else [] := by
  -- an alternative with another left-hand side is neither counted nor reported
  by_cases hn : c.alternative.lhs = n
  · subst hn
    cases hempty : c.alternative.symbols.isEmpty with
    | false => simp [Closed.repeated, Closed.isEmptyOf, hempty]
    | true =>
      cases hbefore : before.any (Closed.isEmptyOf c.alternative.lhs) with
      | false => simp [Closed.repeated, Closed.isEmptyOf, hempty, hbefore]
      | true =>
        simp [Closed.repeated, Closed.isEmptyOf, Closed.repeatOf, hempty, hbefore,
          Diagnostic.isRepeatOf]
  · have hother : c.isEmptyOf n = false := by simp [Closed.isEmptyOf, hn]
    rw [hother, Bool.false_and, if_neg Bool.false_ne_true, List.filter_eq_nil_iff]
    intro d hd
    unfold Closed.repeated at hd
    split at hd
    · rw [List.mem_singleton.mp hd]
      simp [Diagnostic.isRepeatOf, hn]
    · cases hd

/-- An alternative is reported at most once. -/
theorem countP_repeated (file : String) (before : List Closed) (c : Closed) (n : String) :
    (c.repeated file before).countP (Diagnostic.isRepeatOf n) =
      if c.isEmptyOf n && before.any (Closed.isEmptyOf n) then 1 else 0 := by
  rw [List.countP_eq_length_filter, filter_repeated]
  split <;> rfl

/-- Of each left-hand side, every empty alternative is reported but the first one. -/
theorem filter_repeatsOf (file : String) (before cs : List Closed) (n : String) :
    (repeatsOf file before cs).filter (Diagnostic.isRepeatOf n) =
      ((cs.filter (Closed.isEmptyOf n)).drop
        (if before.any (Closed.isEmptyOf n) then 0 else 1)).map (Closed.repeatOf file n) := by
  induction cs generalizing before with
  | nil => simp [repeatsOf]
  | cons c cs ih =>
    rw [repeatsOf, List.filter_append, ih, filter_repeated, List.any_append, List.filter_cons]
    -- the alternative is empty and counts, or it changes nothing
    cases hempty : c.isEmptyOf n with
    | false => simp [hempty]
    | true =>
      cases hbefore : before.any (Closed.isEmptyOf n) with
      | false => simp [hempty]
      | true => simp [hempty]

/-! ## What is reported -/

/-- The diagnostics on repeated empty alternatives. -/
def State.repeats (s : State) : List Diagnostic := s.errors.filter fun d => d.problem.isRepeat

variable {h h' : History} {s s' : State} {t : Token} {a : Alternative} {id : RuleId}

/-- Another problem does not count as a repeated alternative. -/
theorem repeats_report (s : State) (line : Nat) {p : Problem} (hp : p.isRepeat = false) :
    (s.report line p).repeats = s.repeats := by
  simp [State.repeats, State.report, hp]

/-- No empty alternative was closed just if the record has none. -/
theorem any_isEmptyOf_eq_false_iff {lhs : String} :
    h.closed.any (Closed.isEmptyOf lhs) = false ↔ h.record.Fresh lhs := by
  rw [List.any_eq_false]
  constructor
  · rintro hall c' hc' hlhs hempty
    obtain ⟨c, hc, rfl⟩ := List.mem_map.mp hc'
    have hlhs' : c.alternative.lhs = lhs := hlhs
    have hempty' : c.alternative.symbols = [] := hempty
    exact hall c hc (by simp [Closed.isEmptyOf, hlhs', hempty'])
  · intro hfresh c hc hempty
    simp only [Closed.isEmptyOf, Bool.and_eq_true, decide_eq_true_eq, List.isEmpty_iff] at hempty
    exact symbols_ne_nil_of_fresh hfresh hc hempty.1 hempty.2

/-- The check reports what the history says. -/
theorem errors_checkEmpty (hh : Agrees h s) (hcurrent : h.current = some a)
    (hopen : s.openRule = some id) {r : Rule} (hrule : s.grammar.rule? id = some r)
    (hr : Matches h.names r a) (line : Nat) :
    (checkEmpty id r.lhs line s).errors = s.errors ++
      if h.closed.any (Closed.isEmptyOf a.lhs) then
        [⟨⟨s.file, line⟩, .repeatedEmptyAlternative a.lhs⟩] else [] := by
  cases hany : h.closed.any (Closed.isEmptyOf a.lhs) with
  | false =>
    have hfresh := any_isEmptyOf_eq_false_iff.mp hany
    rw [checkEmpty_eq_self hh hcurrent hopen hrule hfresh rfl]
    simp
  | true =>
    have hname : s.grammar.name r.lhs = a.lhs :=
      SymbolTable.name_eq_of_names (hh.names ▸ hr.lhs)
    -- if nothing were reported, nothing would have been reported without earlier diagnostics
    have hgrammar : { s with errors := [] }.grammar = s.grammar := rfl
    have hrepeated : ¬ (checkEmpty id r.lhs line { s with errors := [] }).errors = [] := by
      intro hnil
      have hfresh := fresh_of_checkEmpty hh hcurrent hopen hrule hgrammar hnil
      rw [any_isEmptyOf_eq_false_iff.mpr hfresh] at hany
      contradiction
    unfold checkEmpty at hrepeated ⊢
    dsimp only at hrepeated ⊢
    split at hrepeated
    · next hcheck =>
      rw [if_pos hcheck]
      simp [State.report, hname]
    · exact absurd rfl hrepeated

/-! ## Tokens -/

/-- A token that closes an alternative. -/
theorem errors_of_closing (hh : Agrees h s) (hphase : s.phase = .ruleBody ∨ s.phase = .afterPrec)
    (hcurrent : h.current = some a) (hclosing : t.is '|' = true ∨ t.is ';' = true) :
    (react t s).state.errors = s.errors ++ Closed.repeated s.file h.closed ⟨a, t⟩ := by
  obtain ⟨id, hopen⟩ := hh.exists_openRule_eq hcurrent
  obtain ⟨r, hrule, hr⟩ := hh.rule?_of_openRule hcurrent hopen
  -- both marks check an empty alternative, before or after it is closed
  have herrors : (react t s).state.errors =
      if r.rhs.isEmpty then (checkEmpty id r.lhs t.line s).errors else s.errors := by
    rcases hclosing with hbar | hsemicolon
    · rw [react_of_bar hphase hopen hbar]
      exact errors_newAlternative hrule t.line
    · rw [react_of_semicolon hphase hopen hsemicolon]
      exact errors_endRule hrule t.line
  rw [herrors, hr.isEmpty_rhs, errors_checkEmpty hh hcurrent hopen hrule hr, Closed.repeated]
  cases a.symbols.isEmpty with
  | false => simp
  | true => simp

/-- A bar or a semicolon closes the open alternative. -/
theorem closed_of_closing {phase : Phase} (hphase : phase = .ruleBody ∨ phase = .afterPrec)
    (hcurrent : h.current = some a) (hclosing : t.is '|' = true ∨ t.is ';' = true) :
    (h.observe phase t).closed = h.closed ++ [⟨a, t⟩] := by
  rcases hclosing with hbar | hsemicolon
  · rw [observe_of_bar hphase hcurrent hbar]
    rfl
  · rw [observe_of_semicolon hphase hcurrent hsemicolon]
    rfl

/-- The token is read inside an alternative and closes it. -/
def Closes (t : Token) (phase : Phase) (h : History) : Prop :=
  (phase = .ruleBody ∨ phase = .afterPrec) ∧ h.current.isSome = true ∧
    (t.is '|' = true ∨ t.is ';' = true)

/-- Without a mark no alternative is closed. -/
theorem closed_observeAlternative {inBody : Bool}
    (hnot : h.current.isSome = true → ¬ (t.is '|' = true ∨ t.is ';' = true)) :
    (h.observeAlternative inBody t).closed = h.closed := by
  unfold History.observeAlternative
  split
  · rfl
  · next a hcurrent =>
    have hmarks := not_or.mp (hnot (by rw [hcurrent]; rfl))
    rw [if_neg hmarks.1, if_neg hmarks.2]
    split
    · rfl
    split <;> rfl

/-- A token that closes no alternative leaves the closed ones as they are. -/
theorem closed_observe {phase : Phase} (hnot : ¬ Closes t phase h) :
    (h.observe phase t).closed = h.closed := by
  by_cases hphase : phase = .ruleBody ∨ phase = .afterPrec
  · have hopen (hcurrent : h.current.isSome = true) : ¬ (t.is '|' = true ∨ t.is ';' = true) :=
      fun hmark => hnot ⟨hphase, hcurrent, hmark⟩
    rcases hphase with rfl | rfl <;> exact closed_observeAlternative hopen
  · exact (History.observe_frame phase t h).2 hphase

/-! ## What other tokens report -/

/-- A code block reports no repeated alternative. -/
theorem repeats_attachCode (id : RuleId) (t : Token) (s : State) :
    (attachCode id t s).repeats = s.repeats := by
  unfold attachCode
  split
  · rfl
  split
  · exact repeats_report s t.line rfl
  · rfl

/-- Where a rule is open an alternative is open. -/
theorem Agrees.isSome_current (hh : Agrees h s) (hopen : s.openRule = some id) :
    h.current.isSome = true := by
  rw [hh.openRule] at hopen
  obtain ⟨a, ha, -⟩ := Option.map_eq_some_iff.mp hopen
  rw [ha]
  rfl

/-- Inside an alternative a rule is open, so what closes none there is no mark. -/
theorem not_mark_of_not_closes (hh : Agrees h s)
    (hphase : s.phase = .ruleBody ∨ s.phase = .afterPrec) (hopen : s.openRule = some id)
    (hnot : ¬ Closes t s.phase h) : ¬ t.is '|' = true ∧ ¬ t.is ';' = true :=
  not_or.mp fun hmark => hnot ⟨hphase, hh.isSome_current hopen, hmark⟩

/-- In the body of a rule, only marks report repeated alternatives. -/
theorem repeats_reactRuleBody (hh : Agrees h s) (hphase : s.phase = .ruleBody)
    (hnot : ¬ Closes t s.phase h) : (reactRuleBody t s).state.repeats = s.repeats := by
  simp only [reactRuleBody, Reaction.state]
  split
  · split <;> rfl
  next id hopen =>
  obtain ⟨hbar, hsemicolon⟩ := not_mark_of_not_closes hh (.inl hphase) hopen hnot
  rw [if_neg hbar, if_neg hsemicolon]
  split
  · exact repeats_attachCode id t s
  split
  · rfl
  split
  · rfl
  · exact repeats_report s t.line rfl

/-- Behind a precedence, only marks report repeated alternatives. -/
theorem repeats_reactAfterPrec (hh : Agrees h s) (hphase : s.phase = .afterPrec)
    (hnot : ¬ Closes t s.phase h) : (reactAfterPrec t s).state.repeats = s.repeats := by
  simp only [reactAfterPrec, Reaction.state]
  split
  · rfl
  next id hopen =>
  obtain ⟨hbar, hsemicolon⟩ := not_mark_of_not_closes hh (.inr hphase) hopen hnot
  rw [if_neg hbar, if_neg hsemicolon]
  split
  · exact repeats_attachCode id t s
  · exact repeats_report s t.line rfl

/-- Only a token that closes an alternative is reported as the end of a repeated one. -/
theorem repeats_react (hh : Agrees h s) (hnot : ¬ Closes t s.phase h) :
    (react t s).state.repeats = s.repeats := by
  by_cases hphase : s.phase = .ruleBody ∨ s.phase = .afterPrec
  · rcases hphase with hphase | hphase
    · have hreact := repeats_reactRuleBody hh hphase hnot
      rwa [react, hphase]
    · have hreact := repeats_reactAfterPrec hh hphase hnot
      rwa [react, hphase]
  · refine filter_errors_react (fun p hp hmem => hphase ?_) t
    -- no other phase reports a repeated empty alternative
    cases p with
    | repeatedEmptyAlternative =>
      rcases List.mem_cons.mp hmem with hbody | hafter
      · exact .inl hbody
      · exact .inr (List.mem_singleton.mp hafter)
    | _ => cases hp

/-! ## Lists of tokens -/

/-- The state reports the repeated empty alternatives of the history. -/
def Repeats (h : History) (s : State) : Prop := s.repeats = repeatsOf s.file [] h.closed

/-- A reaction reports the repeated alternative that it closes, and no other one. -/
theorem repeats_react_of_agrees (hh : Agrees h s) (hs : Repeats h s) (t : Token) :
    Repeats (h.observe s.phase t) (react t s).state := by
  unfold Repeats at hs ⊢
  rw [(effect_react t s).file]
  by_cases hcloses : Closes t s.phase h
  · obtain ⟨hphase, hopen, hmark⟩ := hcloses
    obtain ⟨a, hcurrent⟩ := Option.isSome_iff_exists.mp hopen
    rw [closed_of_closing hphase hcurrent hmark, repeatsOf_concat, List.nil_append, ← hs,
      State.repeats, errors_of_closing hh hphase hcurrent hmark, List.filter_append]
    congr 1
    -- what the closing token reports is a repeated empty alternative
    unfold Closed.repeated
    split <;> rfl
  · rw [closed_observe hcloses, repeats_react hh hcloses, hs]

/-- A token keeps what is reported in step with the history. -/
theorem repeats_consume (hh : Agrees h s) (hs : Repeats h s) (t : Token) :
    Repeats (h.read t s) (consume t s) := by
  have hagrees := hh.react t
  have hfirst := repeats_react_of_agrees hh hs t
  unfold History.read consume
  cases hreact : react t s with
  | done s' =>
    rw [hreact] at hfirst
    exact hfirst
  | again s' =>
    rw [hreact] at hagrees hfirst
    exact repeats_react_of_agrees hagrees hfirst t

/-- A list of tokens keeps what is reported in step with the history. -/
theorem repeats_readAll (hh : Agrees h s) (hs : Repeats h s) (ts : List Token) :
    Repeats (h.readAll ts s) (consumeAll ts s) := by
  induction ts generalizing h s with
  | nil => exact hs
  | cons t ts ih => exact ih (agrees_consume hh t) (repeats_consume hh hs t)

/-- Whatever the tokens are, an empty alternative is reported exactly if it is not the first one of
its left-hand side, on the line of the token that closes it. -/
theorem repeats_consumeAll (file : String) (ts : List Token) :
    (consumeAll ts (.initial file)).repeats =
      repeatsOf file [] (History.ofTokens file ts).closed := by
  have hrepeats : Repeats (.ofTokens file ts) (consumeAll ts (.initial file)) :=
    repeats_readAll (agrees_initial file) rfl ts
  rw [Repeats, file_consumeAll] at hrepeats
  exact hrepeats

/-- What is reported of a left-hand side is a repeated alternative. -/
theorem filter_errors_isRepeatOf (s : State) (n : String) :
    s.errors.filter (Diagnostic.isRepeatOf n) = s.repeats.filter (Diagnostic.isRepeatOf n) := by
  rw [State.repeats, List.filter_filter]
  congr 1
  funext d
  -- a repeated alternative of this left-hand side is a repeated alternative
  cases hd : Diagnostic.isRepeatOf n d with
  | false => rfl
  | true =>
    have hproblem : d.problem = .repeatedEmptyAlternative n := of_decide_eq_true hd
    simp [hproblem, Problem.isRepeat]

/-- Of each left-hand side, all empty alternatives are reported but the first one. -/
theorem filter_repeats_consumeAll (file : String) (ts : List Token) (n : String) :
    (consumeAll ts (.initial file)).repeats.filter (Diagnostic.isRepeatOf n) =
      ((History.ofTokens file ts).closed.filter (Closed.isEmptyOf n)).tail.map
        (Closed.repeatOf file n) := by
  rw [repeats_consumeAll, filter_repeatsOf, ← List.drop_one]
  rfl

/-- Of each left-hand side, all empty alternatives are reported but one. -/
theorem countP_repeats_consumeAll (file : String) (ts : List Token) (n : String) :
    (consumeAll ts (.initial file)).errors.countP (Diagnostic.isRepeatOf n) =
      (History.ofTokens file ts).closed.countP (Closed.isEmptyOf n) - 1 := by
  rw [List.countP_eq_length_filter, filter_errors_isRepeatOf, filter_repeats_consumeAll,
    List.length_map, List.length_tail, ← List.countP_eq_length_filter]

/-- After any tokens, the empty alternatives of a left-hand side are reported in the order in which
they were closed, each on the line of the token that closed it, and all but the first one. So their
number is one less than that of these alternatives, or zero where there are none. -/
theorem repeats_of_leftHandSide (file : String) (ts : List Token) (n : String) :
    (consumeAll ts (.initial file)).errors.filter (Diagnostic.isRepeatOf n) =
        ((History.ofTokens file ts).closed.filter (Closed.isEmptyOf n)).tail.map
          (fun c => ⟨⟨file, c.closing.line⟩, .repeatedEmptyAlternative n⟩) ∧
      (consumeAll ts (.initial file)).errors.countP (Diagnostic.isRepeatOf n) =
        (History.ofTokens file ts).closed.countP (Closed.isEmptyOf n) - 1 := by
  refine ⟨?_, countP_repeats_consumeAll file ts n⟩
  rw [filter_errors_isRepeatOf, filter_repeats_consumeAll]
  rfl

end Reading

end YaccGrammar
