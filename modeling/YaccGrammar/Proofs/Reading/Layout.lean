import YaccGrammar.Analysis.Basic
import YaccGrammar.Proofs.Reading.Ending
import YaccGrammar.Proofs.Reading.Lines
import YaccGrammar.Proofs.Undefined
import YaccGrammar.Report.Basic

/-!
# Layout does not matter

Neither the check for undefined symbols nor the analysis nor the report looks at a line. So two
texts that are cut into the same tokens, however they are laid out, yield the same diagnostics up to
lines, and the same report to the letter.

## Main statements

- `unplaced_verify`, `unplaced_analyze`, `text_unplaced`: what is done with a grammar commutes with
  forgetting lines.
- `sameOutcome_of_texts`: what two layouts of the same tokens have in common.
-/

namespace YaccGrammar

/-! ## Undefined symbols -/

namespace Grammar

/-- A symbol has the same rules without their lines. -/
theorem hasRules_unplaced (g : Grammar) (id : SymbolId) :
    g.unplaced.hasRules id = g.hasRules id := by
  simp [hasRules, unplaced]

/-- Whether a symbol is undefined does not depend on lines. -/
theorem isUndefined_unplaced (g : Grammar) : g.unplaced.isUndefined = g.isUndefined := by
  funext id
  rw [isUndefined, isUndefined, hasRules_unplaced]
  rfl

/-- The uses of undefined symbols are the same but for their lines. -/
theorem undefinedUses_unplaced (g : Grammar) :
    g.unplaced.undefinedUses = g.undefinedUses.map fun p => (p.1, 0) := by
  have hrules : g.unplaced.rules = g.rules.map Rule.unplaced := rfl
  rw [undefinedUses, undefinedUses, isUndefined_unplaced, hrules, List.flatMap_map,
    List.map_flatMap]
  simp only [List.map_map]
  rfl

/-- The finding on the start symbol has no line of the text. -/
theorem undefinedStart_unplaced (g : Grammar) (file : String) :
    g.unplaced.undefinedStart file = g.undefinedStart file := by
  have hstart : g.unplaced.start? = g.start? := by
    simp [start?, unplaced, Function.comp_def, Rule.unplaced]
  unfold undefinedStart
  rw [hstart]
  cases g.start? with
  | none => rfl
  | some id =>
    dsimp only
    rw [hasRules_unplaced]
    rfl

/-- The check of a grammar commutes with forgetting lines. -/
theorem unplaced_verify (g : Grammar) (file : String) :
    (g.verify file).map Diagnostic.unplaced = g.unplaced.verify file := by
  -- the first use of a symbol stays the first one
  have huses : (g.undefinedNonterminals file).map Diagnostic.unplaced =
      g.unplaced.undefinedNonterminals file := by
    rw [undefinedNonterminals, undefinedNonterminals, undefinedUses_unplaced,
      firstPerKey_map (fun _ => 0), List.map_map, List.map_map]
    rfl
  have hstart : (g.undefinedStart file).toList.map Diagnostic.unplaced =
      (g.undefinedStart file).toList := by
    unfold undefinedStart
    split
    · split <;> rfl
    · rfl
  rw [verify, verify, List.map_append, huses, hstart, undefinedStart_unplaced]

end Grammar

/-! ## The analysis -/

namespace Analysis

/-- A pass does not look at lines if none of its visits does. -/
theorem pass_unplaced {visit : SymbolTable → Rule → Bool × SymbolTable}
    (hvisit : ∀ t r, visit t r.unplaced = visit t r) (rules : List Rule) (t : SymbolTable) :
    pass visit (rules.map Rule.unplaced) t = pass visit rules t := by
  induction rules generalizing t with
  | nil => rfl
  | cons r rules ih => simp only [List.map_cons, pass, hvisit, ih]

/-- What visits make of a grammar, if they do not look at lines. -/
theorem unplaced_settleRules (visit : SymbolTable → Rule → Bool × SymbolTable)
    (hvisit : ∀ t r, visit t r.unplaced = visit t r) (g : Grammar) :
    (settleRules visit g).2.unplaced = (settleRules visit g.unplaced).2 := by
  have hpass : pass visit g.unplaced.rules = pass visit g.rules :=
    funext (pass_unplaced hvisit g.rules)
  have hlength : g.unplaced.rules.length = g.rules.length := List.length_map ..
  unfold settleRules
  rw [hpass, hlength]
  rfl

/-- Precedences of rules do not depend on lines. -/
theorem unplaced_backfillPrecedence (g : Grammar) :
    (backfillPrecedence g).unplaced = backfillPrecedence g.unplaced := by
  simp only [backfillPrecedence, Grammar.unplaced, List.map_map]
  rfl

end Analysis

/-- The analysis commutes with forgetting lines. -/
theorem Grammar.unplaced_analyze (g : Grammar) : g.analyze.unplaced = g.unplaced.analyze := by
  have hnullable := Analysis.unplaced_settleRules Analysis.visitNullable (fun t r => rfl)
    g.sorted
  -- all parts of the analysis commute, one after the other
  have hprepared : g.prepared.unplaced = g.unplaced.prepared := by
    unfold Grammar.prepared
    rw [Analysis.unplaced_backfillPrecedence]
    exact congrArg Analysis.backfillPrecedence hnullable
  have hfirst := Analysis.unplaced_settleRules Analysis.visitFirst (fun t r => rfl)
    g.prepared
  unfold Grammar.analyze
  rw [← hprepared]
  exact hfirst

/-! ## The report -/

namespace Report

/-- The report does not show any line of the text. -/
theorem text_unplaced (g : Grammar) (file : String) (firstSets : Bool) :
    text g.unplaced file firstSets = text g file firstSets := by
  -- a rule is printed without its line
  have hrules : g.unplaced.rules.map g.unplaced.displayRule = g.rules.map g.displayRule := by
    simp only [Grammar.unplaced, List.map_map]
    rfl
  have hreprint : reprintLines g.unplaced file = reprintLines g file := by
    unfold reprintLines
    rw [hrules]
    rfl
  have hfirst : firstSetLines g.unplaced = firstSetLines g := rfl
  unfold text lines
  rw [hreprint, hfirst]

end Report

/-! ## Texts -/

namespace Reading

open Tokenizer

/-- The tokens into which a whole text is cut. -/
def TokensOf (text : String) (ts : List Token) : Prop :=
  ∃ t t', Takes (.ofString text) ts t ∧ t.next = .ok (.nothing, t')

/-- Two documents, or two lists of diagnostics, that differ in lines only. -/
inductive SameOutcome (file : String) :
    Except (List Diagnostic) Document → Except (List Diagnostic) Document → Prop where
  | ok {d d' : Document} (hgrammar : d.grammar.unplaced = d'.grammar.unplaced)
      (herrors : d.errors.map Diagnostic.unplaced = d'.errors.map Diagnostic.unplaced)
      (hreport : ∀ firstSets, Report.text d.grammar.analyze file firstSets =
        Report.text d'.grammar.analyze file firstSets) :
      SameOutcome file (.ok d) (.ok d')
  | error {es es' : List Diagnostic}
      (herrors : es.map Diagnostic.unplaced = es'.map Diagnostic.unplaced) :
      SameOutcome file (.error es) (.error es')

/-- Grammars that differ in lines only have the same report. -/
theorem report_eq_of_unplaced_eq {g g' : Grammar} (h : g.unplaced = g'.unplaced) (file : String)
    (firstSets : Bool) :
    Report.text g.analyze file firstSets = Report.text g'.analyze file firstSets := by
  calc Report.text g.analyze file firstSets
      = Report.text g.analyze.unplaced file firstSets := (Report.text_unplaced _ _ _).symm
    _ = Report.text g'.analyze.unplaced file firstSets := by
        rw [Grammar.unplaced_analyze, h, ← Grammar.unplaced_analyze]
    _ = Report.text g'.analyze file firstSets := Report.text_unplaced _ _ _

/-- Whether a text is complete does not depend on lines. -/
theorem isComplete_unplaced (s : State) : s.unplaced.isComplete = s.isComplete := by
  unfold State.isComplete
  rw [State.unplaced_phase, State.unplaced_rules]
  cases s.phase with
  | ruleHead => simp
  | _ => rfl

/-- Where the states that are reached differ in lines only, so do the outcomes. -/
theorem sameOutcome_of_unplaced_eq {file : String} {r r' : Run} (hcut : r.cut = none)
    (hcut' : r'.cut = none) (h : r.state.unplaced = r'.state.unplaced) :
    SameOutcome file r.outcome r'.outcome := by
  have hgrammar : r.state.grammar.unplaced = r'.state.grammar.unplaced :=
    congrArg (fun s => s.grammar) h
  have herrors : r.state.errors.map Diagnostic.unplaced = r'.state.errors.map Diagnostic.unplaced :=
    congrArg (fun s => s.errors) h
  have hfile : r.state.file = r'.state.file := congrArg (fun s => s.file) h
  have hphase : r.state.phase = r'.state.phase := congrArg (fun s => s.phase) h
  have hcomplete : r.state.isComplete = r'.state.isComplete := by
    rw [← isComplete_unplaced, h, isComplete_unplaced]
  unfold Run.outcome Run.errors
  rw [hcut, hcut', ← hcomplete]
  split
  · -- both are complete, so both are checked
    refine .ok hgrammar ?_ (report_eq_of_unplaced_eq hgrammar file)
    simp only [List.map_append, Grammar.unplaced_verify, herrors, hgrammar, hfile]
  · refine .error ?_
    split
    · exact herrors
    · -- the last diagnostic names the phase in which the text ends, and that is the same
      simp [State.report, Diagnostic.unplaced, Problem.unplaced, herrors, hfile, hphase]

/-- The layout of a file does not matter. Tokens with the same texts lead to states that differ in
lines only. So two texts without trailing code that are cut into tokens with the same texts yield
documents that differ in lines only and have the same report, or diagnostics that differ in lines
only. -/
theorem sameOutcome_of_texts (file : String) :
    (∀ ts ts' : List Token, ts.map Token.text = ts'.map Token.text →
      (consumeAll ts (.initial file)).unplaced = (consumeAll ts' (.initial file)).unplaced) ∧
    ∀ (text text' : String) (ts ts' : List Token), TokensOf text ts → TokensOf text' ts' →
      ts.map Token.text = ts'.map Token.text →
      (consumeAll ts (.initial file)).phase ≠ .trailer →
      ∃ o o', parse file text = .ok o ∧ parse file text' = .ok o' ∧ SameOutcome file o o' := by
  refine ⟨fun ts ts' htexts => unplaced_consumeAll_eq htexts _, ?_⟩
  rintro text text' ts ts' ⟨t, u, htakes, hend⟩ ⟨t', u', htakes', hend'⟩ htexts hphase
  -- lines apart, the states are the same, and so are the phases
  have hstates := unplaced_consumeAll_eq htexts (.initial file)
  have hphase' : (consumeAll ts' (.initial file)).phase ≠ .trailer := by
    have hsame : (consumeAll ts (.initial file)).phase = (consumeAll ts' (.initial file)).phase :=
      congrArg (fun s => s.phase) hstates
    rwa [← hsame]
  have hfound : Found file text ts t := ⟨htakes, hphase⟩
  have hfound' : Found file text' ts' t' := ⟨htakes', hphase'⟩
  let r : Run := ⟨ts, u, consumeAll ts (.initial file), none⟩
  let r' : Run := ⟨ts', u', consumeAll ts' (.initial file), none⟩
  refine ⟨r.outcome, r'.outcome, ?_, ?_, sameOutcome_of_unplaced_eq rfl rfl hstates⟩
  · rw [parse, hfound.readText_of_nothing hend]
    rfl
  · rw [parse, hfound'.readText_of_nothing hend']
    rfl

/-- Line breaks and comments between the tokens of a file change its lines and nothing else. -/
theorem sameOutcome_of_texts_spread :
    let ts : List Token :=
      [⟨"%", 1⟩, ⟨"\x7b%\x7d", 1⟩, ⟨"%", 1⟩, ⟨"%", 1⟩, ⟨"s", 1⟩, ⟨":", 1⟩, ⟨"A", 1⟩, ⟨";", 1⟩]
    let ts' : List Token :=
      [⟨"%", 1⟩, ⟨"\x7b%\x7d", 1⟩, ⟨"%", 2⟩, ⟨"%", 2⟩, ⟨"s", 3⟩, ⟨":", 3⟩, ⟨"A", 4⟩, ⟨";", 4⟩]
    TokensOf "%\x7b%\x7d%%s:A;" ts ∧
      TokensOf "%\x7b%\x7d\n%% // rules\ns :\nA /* all */ ; " ts' ∧
      consumeAll ts (.initial "list.y") ≠ consumeAll ts' (.initial "list.y") ∧
      ∃ o o', parse "list.y" "%\x7b%\x7d%%s:A;" = .ok o ∧
        parse "list.y" "%\x7b%\x7d\n%% // rules\ns :\nA /* all */ ; " = .ok o' ∧
        SameOutcome "list.y" o o' := by
  intro ts ts'
  have htokens : TokensOf "%\x7b%\x7d%%s:A;" ts :=
    ⟨_, _, .cons rfl <| .cons rfl <| .cons rfl <| .cons rfl <| .cons rfl <| .cons rfl <|
      .cons rfl <| .cons rfl <| .nil _, rfl⟩
  have htokens' : TokensOf "%\x7b%\x7d\n%% // rules\ns :\nA /* all */ ; " ts' :=
    ⟨_, _, .cons rfl <| .cons rfl <| .cons rfl <| .cons rfl <| .cons rfl <| .cons rfl <|
      .cons rfl <| .cons rfl <| .nil _, rfl⟩
  have hphase : (consumeAll ts (.initial "list.y")).phase ≠ .trailer := by decide
  exact ⟨htokens, htokens', by decide,
    (sameOutcome_of_texts "list.y").2 _ _ ts ts' htokens htokens' rfl hphase⟩

end Reading

end YaccGrammar
