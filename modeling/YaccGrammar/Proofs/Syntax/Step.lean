import YaccGrammar.Proofs.Description.Steps
import YaccGrammar.Proofs.Reading.Amend
import YaccGrammar.Proofs.Syntax.Spelling

/-!
# Steps of reading

Reading as a relation between records: a step reads one token that is in place and writes it down.
A state that nothing has gone wrong in makes a step exactly if it accepts the next token without a
diagnostic. So the lists of tokens that are read without a diagnostic are those that have a path of
steps.

## Main statements

- `Stands.of_steps`: what has steps is read without a diagnostic.
-/

namespace YaccGrammar.Reading

/-! ## Steps -/

/-- The token is in place, and this is what is written down when it is read. -/
inductive Step : Record → Phase → Token → Record → Phase → Prop
  | preambleMark {w : Record} {t : Token} (ht : t.text = "%") :
      Step w .preamble t w .importBlock
  | importBlock {w : Record} {t : Token} (ht : t.isImportBlock = true) :
      Step w .importBlock t { w with importCode := some (t.trimmed 1 2) } .declaration
  | declarationMark {w : Record} {t : Token} (ht : t.text = "%") :
      Step w .declaration t w .keyword
  | rulesMark {w : Record} {t : Token} (ht : t.text = "%") :
      Step w .keyword t w .ruleHead
  | keyword {w : Record} {t : Token} {k : Keyword} (ht : Keyword.ofWord? t.text = some k)
      (hprec : k ≠ .prec) :
      Step w .keyword t { w with line := some (k, none) } .tagOrBlock
  | unionBlock {w : Record} {t : Token} (hline : w.line = some (.union, none))
      (hunion : w.unionCode = none) (ht : t.isBlock = true) :
      Step w .tagOrBlock t { w with line := none, unionCode := some (t.trimmed 1 1) } .declaration
  | tag {w : Record} {t : Token} {k : Keyword} (hline : w.line = some (k, none)) (hk : k ≠ .union)
      (ht : t.first = '<') :
      Step w .tagOrBlock t { w with line := some (k, some (t.trimmed 1 1)) } .declaredNames
  /-- Without a tag the names begin behind the keyword. -/
  | untagged {w w' : Record} {t : Token} {k : Keyword} {phase : Phase}
      (hline : w.line = some (k, none)) (hk : k ≠ .union) (ht : t.first ≠ '<')
      (hstep : Step w .declaredNames t w' phase) :
      Step w .tagOrBlock t w' phase
  | namesMark {w : Record} {t : Token} (ht : t.text = "%") :
      Step w .declaredNames t { w with line := none } .keyword
  /-- A second start symbol is out of place. -/
  | name {w : Record} {t : Token} {k : Keyword} {tag : Option String}
      (hline : w.line = some (k, tag)) (ht : k.Names t)
      (hstart : k = .start → DeclEntry.start? w.entries = none) :
      Step w .declaredNames t
        { w with
          entries := w.entries ++ [⟨k, tag, t.text⟩]
          mentions := w.mentions ++ [t.text] } .declaredNames
  | head {w : Record} {t : Token} (ht : Name.isNonterminal t.text = true) :
      Step w .ruleHead t
        { w with mentions := w.mentions ++ [t.text], current := some { lhs := t.text } } .colon
  | colon {w : Record} {t : Token} (ht : t.text = ":") :
      Step w .colon t w .ruleBody
  | symbol {w : Record} {t : Token} {a : Alternative} (ha : w.current = some a)
      (ht : Name.isSymbol t.text = true) :
      Step w .ruleBody t
        { w with
          mentions := w.mentions ++ [t.text]
          current := some { a with symbols := a.symbols ++ [t.text] } } .ruleBody
  | precMark {w : Record} {t : Token} {a : Alternative} (ha : w.current = some a)
      (ht : t.text = "%") :
      Step w .ruleBody t w .precKeyword
  | precKeyword {w : Record} {t : Token} (ht : Keyword.ofWord? t.text = some .prec) :
      Step w .precKeyword t w .precSymbol
  | precSymbol {w : Record} {t : Token} {a : Alternative} (ha : w.current = some a)
      (ht : t.text ∈ w.mentions) :
      Step w .precSymbol t { w with current := some { a with prec := some t.text } } .afterPrec
  /-- A second code block is out of place. -/
  | code {w : Record} {t : Token} {phase : Phase} {a : Alternative}
      (hphase : phase = .ruleBody ∨ phase = .afterPrec) (ha : w.current = some a)
      (hcode : a.code = none) (ht : t.first = '{') :
      Step w phase t { w with current := some { a with code := some t.text } } phase
  /-- A second empty alternative of the left-hand side is out of place. -/
  | bar {w : Record} {t : Token} {phase : Phase} {a : Alternative}
      (hphase : phase = .ruleBody ∨ phase = .afterPrec) (ha : w.current = some a)
      (hfresh : a.symbols = [] → w.Fresh a.lhs) (ht : t.text = "|") :
      Step w phase t
        { w with closings := w.closings ++ [(a, true)], current := some { lhs := a.lhs } }
        .ruleBody
  | semicolon {w : Record} {t : Token} {phase : Phase} {a : Alternative}
      (hphase : phase = .ruleBody ∨ phase = .afterPrec) (ha : w.current = some a)
      (hfresh : a.symbols = [] → w.Fresh a.lhs) (ht : t.text = ";") :
      Step w phase t { w with closings := w.closings ++ [(a, false)], current := none } .ruleHead
  /-- Behind the rules there has to be a rule. -/
  | trailerMark {w : Record} {t : Token} (hkept : w.kept ≠ []) (ht : t.text = "%") :
      Step w .ruleHead t w .trailerMark
  | trailer {w : Record} {t : Token} (ht : t.text = "%") :
      Step w .trailerMark t w .trailer
  | trailing {w : Record} {t : Token} :
      Step w .trailer t w .trailer

/-- A path of steps along a list of tokens. -/
inductive Steps : Record → Phase → List Token → Record → Phase → Prop
  | nil {w : Record} {phase : Phase} : Steps w phase [] w phase
  | cons {w w' w'' : Record} {phase phase' phase'' : Phase} {t : Token} {ts : List Token}
      (hstep : Step w phase t w' phase') (hsteps : Steps w' phase' ts w'' phase'') :
      Steps w phase (t :: ts) w'' phase''

variable {w w' w'' : Record} {phase phase' phase'' : Phase} {s s' : State} {t : Token}
  {ts us : List Token}

/-- Paths are made one behind the other. -/
theorem Steps.trans (hts : Steps w phase ts w' phase') (hus : Steps w' phase' us w'' phase'') :
    Steps w phase (ts ++ us) w'' phase'' := by
  induction hts with
  | nil => exact hus
  | cons hstep _ ih => exact .cons hstep (ih hus)

/-- A step is a path of one. -/
theorem Step.steps (hstep : Step w phase t w' phase') : Steps w phase [t] w' phase' :=
  .cons hstep .nil

/-! ## Steps are read without a diagnostic -/

/-- A token that makes a step is read without a diagnostic. -/
theorem Stands.of_step (hs : Stands w phase s) (hstep : Step w phase t w' phase') :
    Stands w' phase' (consume t s) := by
  induction hstep generalizing s with
  | preambleMark ht => exact hs.preambleMark ht
  | importBlock ht => exact hs.importBlock ht
  | declarationMark ht => exact hs.declarationMark ht
  | rulesMark ht => exact hs.rulesMark ht
  | keyword ht hprec => exact hs.keyword ht hprec
  | unionBlock hline hunion ht => exact hs.unionBlock hline hunion ht
  | tag hline hk ht => exact hs.tag hk hline ht
  | untagged hline hk ht _ ih =>
    -- the token is read again among the names
    obtain ⟨hnames, hconsume⟩ := hs.consume_tagOrBlock hk hline ht
    rw [hconsume]
    exact ih hnames
  | namesMark ht => exact hs.namesMark ht
  -- a name is no mark and no tag
  | name hline ht hstart =>
    have hmark := Bool.eq_false_iff.mpr (mt Token.is_percent_iff.mp ht.mark)
    exact hs.name hline hmark ht.tag ht.accepts hstart
  | head ht => exact hs.head ht
  | colon ht => exact hs.colon ht
  | symbol ha ht => exact hs.symbol ha ht
  | precMark ha ht => exact hs.precMark ha ht
  | precKeyword ht => exact hs.precKeyword ht
  | precSymbol ha ht => exact hs.precSymbol ha ht
  | code hphase ha hcode ht => exact hs.code hphase ha hcode ht
  | bar hphase ha hfresh ht => exact hs.bar hphase ha ht hfresh
  | semicolon hphase ha hfresh ht => exact hs.semicolon hphase ha ht hfresh
  | trailerMark hkept ht => exact hs.trailerMark hkept ht
  | trailer ht => exact hs.trailer ht
  | trailing => exact hs.trailing _

/-- What has steps is read without a diagnostic. -/
theorem Stands.of_steps (hs : Stands w phase s) (hsteps : Steps w phase ts w' phase') :
    Stands w' phase' (consumeAll ts s) := by
  induction hsteps generalizing s with
  | nil => exact hs
  | cons hstep _ ih => exact ih (hs.of_step hstep)

/-! ## Where a file may end -/

/-- The file may end here: behind a rule, or in the trailing code. -/
def Record.Complete (w : Record) (phase : Phase) : Prop :=
  phase = .ruleHead ∧ w.kept ≠ [] ∨ phase = .trailer

/-- A state may end the file where its record may. -/
theorem Stands.isComplete_iff (hs : Stands w phase s) :
    s.isComplete = true ↔ w.Complete phase := by
  rw [State.isComplete, hs.phase, Record.Complete]
  cases phase with
  -- between rules it has to be known that there is one
  | ruleHead => simp [← hs.rules_eq_nil_iff rfl]
  | _ => simp

/-! ## What is being read -/

/-- Behind a keyword a declaration is being read, and inside a rule an alternative. -/
structure Record.Fits (w : Record) (phase : Phase) : Prop where
  keyword : phase = .tagOrBlock → ∃ k, w.line = some (k, none) ∧ k ≠ .prec
  line : phase = .declaredNames → ∃ k tag, w.line = some (k, tag) ∧ k ≠ .prec ∧ k ≠ .union
  current : phase.inRule = true → ∃ a, w.current = some a

/-- At the start nothing is being read. -/
theorem Record.fits_initial : Record.Fits {} .preamble :=
  ⟨nofun, nofun, nofun⟩

/-- The keyword is still that of the declaration when its names begin. -/
theorem Record.Fits.ne_prec (hw : w.Fits .tagOrBlock) {k : Keyword} {tag : Option String}
    (hline : w.line = some (k, tag)) : k ≠ .prec := by
  obtain ⟨k', hline', hprec⟩ := hw.keyword rfl
  rw [hline] at hline'
  obtain ⟨rfl, -⟩ := Prod.mk.inj (Option.some_inj.mp hline')
  exact hprec

/-- Without a tag the names belong to the same declaration. -/
theorem Record.Fits.untagged (hw : w.Fits .tagOrBlock) {k : Keyword}
    (hline : w.line = some (k, none)) (hk : k ≠ .union) : w.Fits .declaredNames :=
  ⟨nofun, fun _ => ⟨k, none, hline, hw.ne_prec hline, hk⟩, nofun⟩

/-- A step leads to a phase in which it is known what is being read. -/
theorem Step.fits (hstep : Step w phase t w' phase') (hw : w.Fits phase) : w'.Fits phase' := by
  -- each field speaks of some phases only, and a step leads to one phase
  induction hstep with
  | preambleMark | importBlock | declarationMark | rulesMark | unionBlock | namesMark | trailerMark
  | trailer | trailing | semicolon => exact ⟨nofun, nofun, nofun⟩
  | keyword _ hprec => exact ⟨fun _ => ⟨_, rfl, hprec⟩, nofun, nofun⟩
  | tag hline hk => exact ⟨nofun, fun _ => ⟨_, _, rfl, hw.ne_prec hline, hk⟩, nofun⟩
  | untagged hline hk _ _ ih => exact ih (hw.untagged hline hk)
  | name => exact ⟨nofun, fun _ => hw.line rfl, nofun⟩
  | colon | precKeyword => exact ⟨nofun, nofun, fun _ => hw.current rfl⟩
  | precMark ha => exact ⟨nofun, nofun, fun _ => ⟨_, ha⟩⟩
  | head | symbol | precSymbol | bar => exact ⟨nofun, nofun, fun _ => ⟨_, rfl⟩⟩
  | code hphase =>
    rcases hphase with rfl | rfl
    · exact ⟨nofun, nofun, fun _ => ⟨_, rfl⟩⟩
    · exact ⟨nofun, nofun, fun _ => ⟨_, rfl⟩⟩

end YaccGrammar.Reading
