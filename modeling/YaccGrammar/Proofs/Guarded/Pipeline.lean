import YaccGrammar.Proofs.Description.RoundTrip
import YaccGrammar.Proofs.Guarded.Reading
import YaccGrammar.Proofs.Guarded.Report
import YaccGrammar.Proofs.Reading.Outcome

/-!
# No access fails from the text to the report

Reading, analysing and reporting one after the other. As long as the precedences can be counted, no
guard on the way refuses anything, whatever the text is; but a name that is wider than a field can
be is refused by the report.

## Main statements

- `runs_unguarded`: the guarded program does what the plain one does, except that a report fails
  where a name is too wide.
- `report_refused_of_wideName`: a text of a few tokens that is read and analysed but has no report.
-/

namespace YaccGrammar.Guarded

open Reading Text

variable {file text : String} {r : Run}

/-! ## Counted precedences -/

/-- How many times a file gives a name a precedence. -/
def declaredPrecedences (file text : String) : Nat :=
  match readText file text with
  | .ok r => (DeclEntry.ranked (History.ofTokens file r.tokens).entries).length
  | .error _ => 0

/-- However a reading ends, its state agrees with the history of its tokens. -/
theorem agrees_of_ends (hr : Ends file text r) : Agrees (.ofTokens file r.tokens) r.state := by
  cases hr with
  | @finished ts => exact agrees_consumeAll file ts
  -- what is cut off is reported, and a report tells nothing else
  | @cut ts => exact (agrees_consumeAll file ts).report _ _
  | @trailing ts k =>
    have hs := agrees_consumeAll file (ts ++ [k])
    rw [consumeAll_concat] at hs
    -- the trailing code is nothing that a history tells about
    exact hs.of_core rfl hs.inRule

/-- However a reading ends, the counter is the number of the precedences that the history tells. -/
theorem nextPrecedence_of_ends (hr : Ends file text r) :
    r.state.nextPrecedence =
      (DeclEntry.ranked (History.ofTokens file r.tokens).entries).length :=
  (agrees_of_ends hr).nextPrecedence

/-- The counter holds how many precedences were declared. -/
theorem declaredPrecedences_eq (hread : readText file text = .ok r) :
    declaredPrecedences file text = r.state.nextPrecedence := by
  obtain ⟨r', hread', hends⟩ := exists_ends file text
  rw [hread, Except.ok.injEq] at hread'
  subst hread'
  rw [declaredPrecedences, hread, nextPrecedence_of_ends hends]

/-! ## Documents -/

/-- The grammar of a document is the one that reading has left. -/
theorem grammar_of_outcome {d : Document} (hd : r.outcome = .ok d) :
    d.grammar = r.state.grammar := by
  unfold Run.outcome at hd
  split at hd
  · cases hd
    rfl
  · cases hd

/-- The grammar of a document has not been analysed yet. -/
theorem fresh_of_outcome (hread : readText file text = .ok r) {d : Document}
    (hd : r.outcome = .ok d) : Fresh d.grammar := by
  obtain ⟨h, hagrees⟩ := (trusted_of_readText hread).agrees
  rw [grammar_of_outcome hd]
  exact hagrees.fresh

/-- The analysis of a document guarantees what the report relies on. -/
theorem reportable_of_outcome (hread : readText file text = .ok r) {d : Document}
    (hd : r.outcome = .ok d) : Reportable d.grammar.analyze d.grammar.table.byName := by
  have hfresh := fresh_of_outcome hread hd
  obtain ⟨r', hread', hends⟩ := exists_ends file text
  rw [hread, Except.ok.injEq] at hread'
  subst hread'
  -- the left-hand side of a rule is a symbol
  obtain ⟨rule, rules, hrules⟩ := List.exists_cons_of_ne_nil (hends.usable hd).1.rules
  have hlhs := (hfresh.inRange rule (hrules ▸ List.mem_cons_self)).1
  refine .analyze hfresh ?_ (Nat.zero_lt_of_lt hlhs)
  rw [grammar_of_outcome hd]
  exact (trusted_of_readText hread).sound.prec

/-! ## The whole program -/

/-- The guarded program does what the plain one does. A text that declares fewer than `2 ^ 32`
precedences is read without a fault, and if that yields a document, it is analysed without one. The
report on it, with or without first-sets, is written unless a name fits in no field; then it is
refused, and for no other reason. -/
theorem runs_unguarded (file text : String) (hcount : declaredPrecedences file text < 2 ^ 32) :
    ∃ o, parse file text = .ok o ∧ Reading.parse file text = .ok o ∧
      ∀ d, o = .ok d → analyze d.grammar = .ok d.grammar.analyze ∧
        ∀ path firstSets,
          (NamesFit d.grammar → ∃ out, report d.grammar.analyze path firstSets = .ok out ∧
            Report.text d.grammar.analyze path firstSets = .ok out) ∧
          (¬ NamesFit d.grammar →
            report d.grammar.analyze path firstSets = .error .wideField) := by
  obtain ⟨r, hread, -⟩ := exists_ends file text
  rw [declaredPrecedences_eq hread] at hcount
  have hplain : Reading.parse file text = .ok r.outcome := by
    rw [Reading.parse, hread, Fault.map_ok]
  refine ⟨r.outcome, parse_eq_ok hread hcount, hplain, fun d hd => ?_⟩
  have hfresh := fresh_of_outcome hread hd
  have hreportable := reportable_of_outcome hread hd
  refine ⟨analyze_eq_ok hfresh.inRange, fun path firstSets => ⟨fun hfit => ?_, fun hwide => ?_⟩⟩
  · -- all names fit
    exact hreportable.report_of_narrow ((nameWidth_view_le_iff hfresh).mpr hfit) path firstSets
  · -- some name does not
    rw [← nameWidth_view_le_iff hfresh, Nat.not_le] at hwide
    exact hreportable.report_of_wide hwide path firstSets

/-! ## Texts that render descriptions -/

section Descriptions

variable {D : Description}

/-- What a text says that renders a description, told as far as faults depend on it. -/
theorem exists_document_of_renders (hvalid : D.Valid) (file : String) {text : String}
    (hrenders : D.Renders text) :
    ∃ r d, readText file text = .ok r ∧ r.outcome = .ok d ∧
      declaredPrecedences file text = (DeclEntry.ranked D.entries).length ∧
      d.grammar.table.names = D.mentions.eraseDups := by
  obtain ⟨r, hread, hr⟩ := readText_of_renders hvalid file hrenders
  obtain ⟨h, hh, hw⟩ := hr.stands.agrees
  have hentries : h.entries = D.entries := congrArg Record.entries hw
  have hmentions : h.mentions = D.mentions := congrArg Record.mentions hw
  refine ⟨r, ⟨r.state.grammar, r.state.errors ++ r.state.grammar.verify r.state.file⟩, hread, ?_,
    ?_, ?_⟩
  · rw [Run.outcome, hr.cut, hr.complete]
    rfl
  · rw [declaredPrecedences_eq hread, hh.nextPrecedence, hentries]
  · rw [hh.names, History.names, hmentions]

end Descriptions

/-- The sums are reported on: they declare two precedences, and all their names fit. -/
theorem runs_unguarded_sums :
    declaredPrecedences "sums.y" sums.render < 2 ^ 32 ∧
      ∃ d out, parse "sums.y" sums.render = .ok (.ok d) ∧
        report d.grammar.analyze "sums.y" true = .ok out := by
  obtain ⟨r, d, hread, hd, hranked, hnames⟩ :=
    exists_document_of_renders (by decide : sums.Valid) "sums.y" sums.renders_render
  have hcount : declaredPrecedences "sums.y" sums.render < 2 ^ 32 := by
    rw [hranked]
    decide
  have hfit : NamesFit d.grammar := by
    rw [NamesFit, hnames]
    decide
  obtain ⟨o, hparse, hplain, hreports⟩ := runs_unguarded "sums.y" sums.render hcount
  have ho : o = .ok d := by
    rw [Reading.parse, hread, Fault.map_ok, hd, Except.ok.injEq] at hplain
    exact hplain.symm
  obtain ⟨out, hreport, -⟩ := ((hreports d ho).2 "sums.y" true).1 hfit
  exact ⟨hcount, d, out, ho ▸ hparse, hreport⟩

/-! ## A name that fits in no field -/

/-- One nonterminal, which derives nothing but the empty text. -/
def single (n : String) : Description where
  importCode := ""
  rules := [⟨n, [⟨[], none, none⟩]⟩]

theorem single_valid {n : String} (hn : Name.isNonterminal n = true) : (single n).Valid where
  importCode := by
    show isCode ("\x7b" ++ "" ++ "%\x7d") = true
    decide
  declaration := nofun
  union := Nat.zero_le 1
  start := Nat.zero_le 1
  rules := List.cons_ne_nil _ _
  rule := by
    intro group hgroup
    rw [List.mem_singleton.mp hgroup]
    simp [RuleGroup.isValid, Branch.isValid, hn]
  prec := rfl
  empty := fun _ _ => List.countP_le_length

/-- The shortest text for a nonterminal. -/
theorem single_renders (n : String) : (single n).Renders ("%\x7b%\x7d%%" ++ n ++ ":;") := by
  refine ⟨[], ?_, rfl⟩
  have htext : ("%\x7b%\x7d%%" ++ n ++ ":;").toList =
      "%".toList ++ ("\x7b%\x7d".toList ++ ("%".toList ++ ("%".toList ++
        (n.toList ++ (":".toList ++ (";".toList ++ [])))))) := by
    simp [String.toList_append]
  have hpercent (rest : List Char) : Separated "%" rest :=
    separated_of_mark rfl (by decide) (by decide) rest
  have hcolon (rest : List Char) : Separated ":" rest :=
    separated_of_mark rfl (by decide) (by decide) rest
  have hsemicolon (rest : List Char) : Separated ";" rest :=
    separated_of_mark rfl (by decide) (by decide) rest
  have hblock (rest : List Char) : Separated "\x7b%\x7d" ("%".toList ++ rest) :=
    show Separated _ ('%' :: rest) from
      separated_of_sign (by decide) (by decide) (by decide)
  have hname (rest : List Char) : Separated n (":".toList ++ rest) :=
    show Separated _ (':' :: rest) from
      separated_of_sign (by decide) (by decide) (by decide)
  rw [htext]
  -- no token needs a gap in front of it
  exact .tight (hpercent _) <| .tight (hblock _) <| .tight (hpercent _) <|
    .tight (hpercent _) <| .tight (hname _) <| .tight (hcolon _) <| .tight (hsemicolon _) .nil

/-- What reading such a text yields, if the name fits in no field. -/
theorem exists_document_of_wide {n : String} (hn : Name.isNonterminal n = true)
    (hwide : Report.fieldLimit < n.toList.length) (file : String) {text : String}
    (hrenders : (single n).Renders text) :
    ∃ r d, readText file text = .ok r ∧ r.outcome = .ok d ∧ declaredPrecedences file text = 0 ∧
      ¬ NamesFit d.grammar := by
  obtain ⟨r, d, hread, hd, hranked, hnames⟩ :=
    exists_document_of_renders (single_valid hn) file hrenders
  refine ⟨r, d, hread, hd, hranked, fun hfit => ?_⟩
  refine Nat.not_le.mpr hwide (hfit n ?_)
  rw [hnames, List.mem_eraseDups]
  exact List.mem_singleton_self n

/-- A nonterminal whose name fits in no field is read and analysed, but not reported on. -/
theorem report_refused_of_wide {n : String} (hn : Name.isNonterminal n = true)
    (hwide : Report.fieldLimit < n.toList.length) (file : String) {text : String}
    (hrenders : (single n).Renders text) :
    declaredPrecedences file text = 0 ∧
      ∃ d, parse file text = .ok (.ok d) ∧ analyze d.grammar = .ok d.grammar.analyze ∧
        ∀ path firstSets, report d.grammar.analyze path firstSets = .error .wideField := by
  obtain ⟨r, d, hread, hd, hzero, hnotfit⟩ := exists_document_of_wide hn hwide file hrenders
  have hparse := parse_eq_ok hread (by rw [← declaredPrecedences_eq hread, hzero]; decide)
  have hfresh := fresh_of_outcome hread hd
  rw [← nameWidth_view_le_iff hfresh, Nat.not_le] at hnotfit
  exact ⟨hzero, d, hd ▸ hparse, analyze_eq_ok hfresh.inRange,
    (reportable_of_outcome hread hd).report_of_wide hnotfit⟩

/-- A text of seven tokens declares no precedences, it is read and analysed, and no report can be
written on it. -/
theorem report_refused_of_wideName :
    let n := String.ofList (List.replicate 65536 'a')
    let text := "%\x7b%\x7d%%" ++ n ++ ":;"
    declaredPrecedences "wide.y" text < 2 ^ 32 ∧
      ∃ d, parse "wide.y" text = .ok (.ok d) ∧ analyze d.grammar = .ok d.grammar.analyze ∧
        report d.grammar.analyze "wide.y" false = .error .wideField := by
  intro n text
  have hchars : n.toList = List.replicate 65536 'a' := String.toList_ofList
  have hn : Name.isNonterminal n = true := by
    rw [Name.isNonterminal, hchars, List.head?_replicate, List.all_replicate]
    decide
  have hwide : Report.fieldLimit < n.toList.length := by
    rw [hchars, List.length_replicate]
    decide
  obtain ⟨hzero, d, hparse, hanalyze, hreport⟩ :=
    report_refused_of_wide hn hwide "wide.y" (single_renders n)
  exact ⟨hzero ▸ by decide, d, hparse, hanalyze, hreport "wide.y" false⟩

end YaccGrammar.Guarded
