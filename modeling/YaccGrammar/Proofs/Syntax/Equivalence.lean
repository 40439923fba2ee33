import YaccGrammar.Proofs.Description.Recording
import YaccGrammar.Proofs.Reading.Meaning
import YaccGrammar.Proofs.Syntax.Division
import YaccGrammar.Proofs.Syntax.Section

/-!
# One rule or several

It makes no difference whether the alternatives of a left-hand side are written behind each other in
one rule, or in several rules. The two ways are read differently: an empty alternative in front of a
bar becomes a flag, one in front of a semicolon a rule. But the grammars mean the same, and the same
number of empty alternatives is reported.

## Main statements

- `Record.alike_of_divides`: divided rules leave alike records.
- `BodyOf.exists_document`: a text whose rules are in place is read to its end.
- `sameMeaning_of_divides`: files that differ in how their rules are divided.
-/

namespace YaccGrammar.Reading

open Tokenizer

variable {before : List Diagnostic} {w : Record} {phase : Phase} {s : State}
  {file text text' : String} {ts ts' head : List Token} {rs rs' : List RuleGroup}

/-! ## Divided rules -/

/-- A rule that is spelled by tokens has an alternative. -/
theorem branches_ne_nil_of_spelled (hrs : Spelled RuleGroup.SpelledBy rs ts) :
    ∀ r ∈ rs, r.branches ≠ [] := by
  intro r hr
  obtain ⟨us, ⟨-, -, hne, -⟩⟩ := hrs.exists_of_mem hr
  exact hne

/-- What rules add to what is kept. -/
theorem Record.kept_addRules (w : Record) (rs : List RuleGroup) :
    (w.addRules rs).kept = w.kept ++ keptOf (rs.flatMap RuleGroup.closings) :=
  keptOf_append _ _

/-- Every rule has an alternative that is kept. -/
theorem Record.kept_addRules_ne_nil (w : Record) (hne : rs ≠ [])
    (hrs : ∀ r ∈ rs, r.branches ≠ []) : (w.addRules rs).kept ≠ [] := by
  obtain ⟨r, rs, rfl⟩ := List.exists_cons_of_ne_nil hne
  have hfirst := keptOf_closings_ne_nil (hrs r List.mem_cons_self)
  rw [kept_addRules, List.flatMap_cons, keptOf_append]
  exact List.append_ne_nil_of_right_ne_nil _ (List.append_ne_nil_of_left_ne_nil hfirst _)

/-- Divided rules leave alike records. -/
theorem Record.alike_of_divides (w : Record) (h : Divides rs rs')
    (hrs : ∀ r ∈ rs, r.branches ≠ []) (hrs' : ∀ r ∈ rs', r.branches ≠ []) :
    (w.addRules rs).Alike (w.addRules rs') where
  entries := rfl
  names := (h.mentions w.mentions).symm
  alternatives := by
    simp only [addRules, List.map_append, h.alternatives]
  lhs := by
    rw [kept_addRules, kept_addRules, List.map_append, List.map_append,
      eraseDups_lhs_keptOf hrs, eraseDups_lhs_keptOf hrs', h.lhs]
  current := ⟨rfl, rfl⟩

/-- How many empty alternatives there are does not depend on the marks that close them. -/
theorem Record.Alike.countP_closings {w w' : Record} (h : w.Alike w') (n : String) :
    w.closings.countP (isEmptyOf n) = w'.closings.countP (isEmptyOf n) := by
  -- the marks are not looked at
  have hfst (l : List (Alternative × Bool)) : l.countP (isEmptyOf n) =
      (l.map Prod.fst).countP fun a => a.lhs = n && a.symbols.isEmpty := by
    rw [List.countP_map]
    rfl
  rw [hfst, hfst, h.alternatives]

/-! ## Texts -/

/-- The tokens of a text up to the end of its rules. There the text ends, or the second `%%` stands
in front of any trailing code. -/
inductive BodyOf (text : String) (ts : List Token) : Prop where
  | finished (htokens : TokensOf text ts)
  | trailing {mark mark' : Token} {t : Tokenizer} (hmark : mark.text = "%")
      (hmark' : mark'.text = "%") (htakes : Takes (.ofString text) (ts ++ [mark, mark']) t)

/-- Trailing code is none of what a record tells. -/
theorem Follows.setTrailer (hs : Follows before w phase s) (code : String) (line : Nat) :
    Follows before w phase (s.setTrailer code line) where
  stands := by
    obtain ⟨h, hh, hw⟩ := hs.stands.agrees
    exact ⟨⟨h, hh.of_core rfl hh.inRule, hw⟩, hs.stands.phase, rfl⟩
  errors := hs.errors
  count := hs.count

/-- What was read to a place where the file may end is a document. -/
theorem parse_of_isComplete {r : Run} (hread : readText file text = .ok r) (hcut : r.cut = none)
    (hcomplete : r.state.isComplete = true) (hfile : r.state.file = file) : parse file text =
      .ok (.ok ⟨r.state.grammar, r.state.errors ++ r.state.grammar.verify file⟩) := by
  rw [parse, hread, Except.map, Run.outcome, hcut, hcomplete, hfile]
  rfl

/-- A text whose rules are in place is read to its end. -/
theorem BodyOf.exists_document (hbody : BodyOf text ts)
    (hs : Follows before w .ruleHead (consumeAll ts (.initial file))) (hkept : w.kept ≠ []) :
    ∃ s phase, parse file text = .ok (.ok ⟨s.grammar, s.errors ++ s.grammar.verify file⟩) ∧
      Follows before w phase s ∧ s.grammar.Chained := by
  cases hbody with
  -- the text ends behind a rule, which is a place where it may end
  | finished htokens =>
    obtain ⟨t, t', htakes, hnext⟩ := htokens
    have hphase : (consumeAll ts (.initial file)).phase = .ruleHead := hs.stands.phase
    have hfound : Found file text ts t := ⟨htakes, by rw [hphase]; nofun⟩
    have hcomplete : (consumeAll ts (.initial file)).isComplete = true :=
      hs.stands.isComplete_iff.mpr (.inl ⟨rfl, hkept⟩)
    exact ⟨_, _, parse_of_isComplete (hfound.readText_of_nothing hnext) rfl hcomplete
      (file_consumeAll ts _), hs, chained_consumeAll file ts⟩
  | @trailing mark mark' t hmark hmark' htakes =>
    -- reading stops at the second mark, and takes the rest of the text
    rw [List.append_cons] at htakes
    obtain ⟨t₁, htakes₁, hnext⟩ := htakes.split_last
    have hlast : consumeAll (ts ++ [mark] ++ [mark']) (.initial file) =
        consume mark' (consumeAll (ts ++ [mark]) (.initial file)) := consumeAll_append _ _ _
    have hfirst : Follows before w .trailerMark (consumeAll (ts ++ [mark]) (.initial file)) := by
      rw [consumeAll_append]
      exact hs.of_steps (.cons (.trailerMark hkept hmark) .nil) rfl
    have hsecond : Follows before w .trailer
        (consume mark' (consumeAll (ts ++ [mark]) (.initial file))) :=
      hfirst.of_steps (.cons (.trailer hmark') .nil) rfl
    have hphase : (consumeAll (ts ++ [mark]) (.initial file)).phase = .trailerMark :=
      hfirst.stands.phase
    have hfound : Found file text (ts ++ [mark]) t₁ := ⟨htakes₁, by rw [hphase]; nofun⟩
    obtain ⟨t'', hread⟩ := hfound.exists_readText_of_trailer hnext hsecond.stands.phase
    have hrest := hsecond.setTrailer (String.ofList t.source.unread) t.line
    have hcomplete := hrest.stands.isComplete_iff.mpr (.inr rfl)
    have hchained := hlast ▸ chained_consumeAll file (ts ++ [mark] ++ [mark'])
    exact ⟨_, _, parse_of_isComplete hread rfl hcomplete (hlast ▸ file_consumeAll _ _), hrest,
      ⟨hchained.lhs, hchained.first, hchained.next⟩⟩

/-- What rules leave behind that stand behind other tokens. -/
theorem exists_document_of_rules (hhead : (consumeAll head (.initial file)).phase = .ruleHead)
    (hrs : Spelled RuleGroup.SpelledBy rs ts) (hne : rs ≠ [])
    (hknown : rulesKnow (History.ofTokens file head).mentions rs = true)
    (htext : BodyOf text (head ++ ts)) :
    ∃ s phase, parse file text = .ok (.ok ⟨s.grammar, s.errors ++ s.grammar.verify file⟩) ∧
      Follows (consumeAll head (.initial file)).errors
        ((History.ofTokens file head).record.addRules rs) phase s ∧ s.grammar.Chained := by
  have hbefore := follows_consumeAll file head
  -- in front of a rule no alternative is open
  have hcurrent := (agrees_consumeAll file head).current_eq_none (by rw [hhead]; rfl)
  rw [hhead] at hbefore
  have hrules := hbefore.rules hcurrent hrs hknown
  rw [← consumeAll_append] at hrules
  exact htext.exists_document hrules
    (Record.kept_addRules_ne_nil _ hne (branches_ne_nil_of_spelled hrs))

/-! ## Two ways to write a file -/

/-- Which problem a diagnostic is on does not depend on lines. -/
theorem countP_unplaced (l : List Diagnostic) (n : String) :
    (l.map Diagnostic.unplaced).countP (Diagnostic.isRepeatOf n) =
      l.countP (Diagnostic.isRepeatOf n) := by
  rw [List.countP_map]
  congr 1
  funext d
  obtain ⟨location, problem⟩ := d
  cases problem <;> rfl

/-- Files that differ in how their rules are divided. Their rules stand behind the same tokens, and
nothing in them is out of place except that empty alternatives may be repeated. Both files are read,
their grammars mean the same, and of each left-hand side they report the same number of repeated
empty alternatives; apart from what is reported on the tokens in front of the rules, and on symbols
without rules, that is all that is reported. -/
theorem sameMeaning_of_divides (hhead : (consumeAll head (.initial file)).phase = .ruleHead)
    (hrs : Spelled RuleGroup.SpelledBy rs ts) (hrs' : Spelled RuleGroup.SpelledBy rs' ts')
    (hdivides : Divides rs rs') (hne : rs ≠ [])
    (hknown : rulesKnow (consumeAll head (.initial file)).grammar.table.names rs = true)
    (htext : BodyOf text (head ++ ts)) (htext' : BodyOf text' (head ++ ts')) :
    ∃ d d', parse file text = .ok (.ok d) ∧ parse file text' = .ok (.ok d') ∧
      d.grammar.SameMeaning d'.grammar ∧
      (∀ n, d.errors.countP (Diagnostic.isRepeatOf n) =
        d'.errors.countP (Diagnostic.isRepeatOf n)) ∧
      ∃ repeats repeats',
        d.errors = (consumeAll head (.initial file)).errors ++ repeats ++ d.grammar.verify file ∧
        d'.errors = (consumeAll head (.initial file)).errors ++ repeats' ++ d'.grammar.verify file ∧
        ∀ e ∈ repeats ++ repeats', e.problem.isRepeat = true := by
  -- the table lists what was mentioned
  have hmentioned : rulesKnow (History.ofTokens file head).mentions rs = true := by
    refine rulesKnow_mono (fun n hn => ?_) hknown
    rw [(agrees_consumeAll file head).names] at hn
    exact History.mem_names.mp hn
  have hne' : rs' ≠ [] := by
    cases hdivides with
    | nil => contradiction
    | keep | divide => exact List.cons_ne_nil _ _
  have halike := (History.ofTokens file head).record.alike_of_divides hdivides
    (branches_ne_nil_of_spelled hrs) (branches_ne_nil_of_spelled hrs')
  -- the divided rules know the symbols behind `%prec` as well, so both files are read alike
  obtain ⟨s, phase, hparse, hs, hchained⟩ :=
    exists_document_of_rules hhead hrs hne hmentioned htext
  obtain ⟨s', phase', hparse', hs', hchained'⟩ :=
    exists_document_of_rules hhead hrs' hne' (hdivides.rulesKnow hmentioned) htext'
  obtain ⟨h, hh, hw⟩ := hs.stands.agrees
  obtain ⟨h', hh', hw'⟩ := hs'.stands.agrees
  -- the two histories are alike, which is all that the meaning depends on
  have hmeaning : s.silent.grammar.SameMeaning s'.silent.grammar := by
    apply hh.sameMeaning hh' hchained hchained'
    rw [hw, hw']
    exact halike
  obtain ⟨repeats, herrors, hrepeats⟩ := hs.errors
  obtain ⟨repeats', herrors', hrepeats'⟩ := hs'.errors
  refine ⟨_, _, hparse, hparse', hmeaning, fun n => ?_, repeats, repeats', ?_, ?_,
    List.forall_mem_append.mpr ⟨hrepeats, hrepeats'⟩⟩
  · -- both counts are told by the alternatives, and nothing else counts
    rw [List.countP_append, List.countP_append, hs.count, hs'.count, halike.countP_closings,
      ← countP_unplaced (s.grammar.verify file)]
    exact congrArg (_ + ·) ((congrArg _ (hmeaning.problems file)).trans (countP_unplaced _ n))
  · rw [herrors]
  · rw [herrors']

/-- All alternatives in one rule, or each in a rule of its own. Two empty alternatives are reported
either way, although one way leaves one flag and three rules and the other leaves four rules. -/
theorem sameMeaning_of_divides_precedence :
    ∃ d d', parse "list.y" "%{%}%left P\n%%a:|B{x}|%prec P|;" = .ok (.ok d) ∧
      parse "list.y" "%{%}%left P\n%%a:;a:B{x}|%prec P;\na:;" = .ok (.ok d') ∧
      d.grammar.rules.length = 3 ∧ d'.grammar.rules.length = 4 ∧ d.grammar.SameMeaning d'.grammar ∧
      d.errors.countP (Diagnostic.isRepeatOf "a") = 2 ∧
      d'.errors.countP (Diagnostic.isRepeatOf "a") = 2 := by
  let head : List Token := [⟨"%", 1⟩, ⟨"{%}", 1⟩, ⟨"%", 1⟩, ⟨"left", 1⟩, ⟨"P", 1⟩, ⟨"%", 2⟩,
    ⟨"%", 2⟩]
  let ts : List Token := [⟨"a", 2⟩, ⟨":", 2⟩, ⟨"|", 2⟩, ⟨"B", 2⟩, ⟨"{x}", 2⟩, ⟨"|", 2⟩,
    ⟨"%", 2⟩, ⟨"prec", 2⟩, ⟨"P", 2⟩, ⟨"|", 2⟩, ⟨";", 2⟩]
  let ts' : List Token := [⟨"a", 2⟩, ⟨":", 2⟩, ⟨";", 2⟩, ⟨"a", 2⟩, ⟨":", 2⟩, ⟨"B", 2⟩,
    ⟨"{x}", 2⟩, ⟨"|", 2⟩, ⟨"%", 2⟩, ⟨"prec", 2⟩, ⟨"P", 2⟩, ⟨";", 2⟩, ⟨"a", 3⟩, ⟨":", 3⟩,
    ⟨";", 3⟩]
  let middle : List Branch :=
    [{ symbols := ["B"], code := some "{x}" }, { symbols := [], prec := some "P" }]
  let rs : List RuleGroup := [⟨"a", [{ symbols := [] }] ++ (middle ++ [{ symbols := [] }])⟩]
  let rs' : List RuleGroup :=
    [⟨"a", [{ symbols := [] }]⟩, ⟨"a", middle⟩, ⟨"a", [{ symbols := [] }]⟩]
  have hhead : (consumeAll head (.initial "list.y")).phase = .ruleHead := by decide
  have hrs : Spelled RuleGroup.SpelledBy rs ts :=
    RuleGroup.spelled_of_tokens (by decide) (by decide)
  have hrs' : Spelled RuleGroup.SpelledBy rs' ts' :=
    RuleGroup.spelled_of_tokens (by decide) (by decide)
  -- the first and the last bar are replaced, and the one between them stays
  have hdivides : Divides rs rs' :=
    .divide (by decide) (by decide) <| .divide (by decide) (by decide) <| .keep _ .nil
  have hknown : rulesKnow (consumeAll head (.initial "list.y")).grammar.table.names rs = true := by
    decide
  have htext : BodyOf "%{%}%left P\n%%a:|B{x}|%prec P|;" (head ++ ts) :=
    .finished ⟨_, _, .cons rfl <| .cons rfl <| .cons rfl <| .cons rfl <| .cons rfl <| .cons rfl <|
      .cons rfl <| .cons rfl <| .cons rfl <| .cons rfl <| .cons rfl <| .cons rfl <| .cons rfl <|
      .cons rfl <| .cons rfl <| .cons rfl <| .cons rfl <| .cons rfl <| .nil _, rfl⟩
  have htext' : BodyOf "%{%}%left P\n%%a:;a:B{x}|%prec P;\na:;" (head ++ ts') :=
    .finished ⟨_, _, .cons rfl <| .cons rfl <| .cons rfl <| .cons rfl <| .cons rfl <| .cons rfl <|
      .cons rfl <| .cons rfl <| .cons rfl <| .cons rfl <| .cons rfl <| .cons rfl <| .cons rfl <|
      .cons rfl <| .cons rfl <| .cons rfl <| .cons rfl <| .cons rfl <| .cons rfl <| .cons rfl <|
      .cons rfl <| .cons rfl <| .nil _, rfl⟩
  obtain ⟨d, d', hparse, hparse', hmeaning, hcount, -⟩ :=
    sameMeaning_of_divides hhead hrs hrs' hdivides (List.cons_ne_nil _ _) hknown htext htext'
  have hd : (parse "list.y" "%{%}%left P\n%%a:|B{x}|%prec P|;").toOption.bind
      (fun o => o.toOption.map fun d => (d.grammar.rules.length,
        d.errors.countP (Diagnostic.isRepeatOf "a"))) = some (3, 2) := by decide
  have hd' : (parse "list.y" "%{%}%left P\n%%a:;a:B{x}|%prec P;\na:;").toOption.bind
      (fun o => o.toOption.map fun d => d.grammar.rules.length) = some 4 := by decide
  rw [hparse] at hd
  rw [hparse'] at hd'
  simp only [Except.toOption, Option.bind_some, Option.map_some, Option.some_inj,
    Prod.mk.injEq] at hd hd'
  exact ⟨d, d', hparse, hparse', hd.1, hd', hmeaning, hd.2, (hcount "a").symm.trans hd.2⟩

end YaccGrammar.Reading
