import YaccGrammar.Proofs.Reading.Amend
import YaccGrammar.Proofs.Reading.Replay

/-!
# Recovery

A file that is damaged in one place is read as the repaired file would be, but for one diagnostic.
What is skipped leaves nothing behind, neither a keyword or a tag nor a symbol or an open rule.

## Main statement

- `consumeAll_of_damage`: a damaged piece costs one diagnostic, whatever follows it.
-/

namespace YaccGrammar

namespace Reading

/-! ## Damages -/

/-- The kinds of damage. `Damage phase damaged repaired found problem` says that the first tokens,
read in the phase, are a damaged form of the second ones. The problem is reported at the token
`found`. -/
inductive Damage : Phase → List Token → List Token → Token → Problem → Prop where
  /-- The block at the top is missing. -/
  | importBlock {mark t mark₁ block mark₂ : Token} (hmark : mark.is '%' = true)
      (ht : t.isImportBlock = false) (hmark₁ : mark₁.is '%' = true)
      (hblock : block.text = "\x7b%\x7d") (hmark₂ : mark₂.is '%' = true) :
      Damage .preamble [mark, t] [mark₁, block, mark₂, t] t (.missingImportBlock t.text)
  /-- A declaration begins with a word that is no keyword. -/
  | keyword {phase : Phase} (hphase : phase = .declaration ∨ phase = .declaredNames)
      {mark word mark' mark'' : Token} {skipped : List Token} (hmark : mark.is '%' = true)
      (hword : word.is '%' = false) (hunknown : Keyword.ofWord? word.text = none)
      (hskipped : ∀ t ∈ skipped, t.is '%' = false) (hmark' : mark'.is '%' = true)
      (hmark'' : mark''.is '%' = true) :
      Damage phase ([mark, word] ++ skipped ++ [mark']) [mark''] word (.unknownKeyword word.text)
  /-- A declaration begins with `prec`. -/
  | prec {phase : Phase} (hphase : phase = .declaration ∨ phase = .declaredNames)
      {mark word mark' mark'' : Token} {skipped : List Token} (hmark : mark.is '%' = true)
      (hprec : Keyword.ofWord? word.text = some .prec)
      (hskipped : ∀ t ∈ skipped, t.is '%' = false) (hmark' : mark'.is '%' = true)
      (hmark'' : mark''.is '%' = true) :
      Damage phase ([mark, word] ++ skipped ++ [mark']) [mark''] word .precOutsideRule
  /-- Something else than a code block follows `%union`. -/
  | union {phase : Phase} (hphase : phase = .declaration ∨ phase = .declaredNames)
      {mark word t mark' mark'' : Token} {skipped : List Token} (hmark : mark.is '%' = true)
      (hunion : Keyword.ofWord? word.text = some .union) (ht : t.is '%' = false)
      (hblock : t.isBlock = false) (hskipped : ∀ t ∈ skipped, t.is '%' = false)
      (hmark' : mark'.is '%' = true) (hmark'' : mark''.is '%' = true) :
      Damage phase ([mark, word, t] ++ skipped ++ [mark']) [mark''] t (.missingUnionBlock t.text)
  /-- The next declaration follows `%union`. -/
  | unionMark {phase : Phase} (hphase : phase = .declaration ∨ phase = .declaredNames)
      {mark word mark' mark'' : Token} (hmark : mark.is '%' = true)
      (hunion : Keyword.ofWord? word.text = some .union) (hmark' : mark'.is '%' = true)
      (hmark'' : mark''.is '%' = true) :
      Damage phase [mark, word, mark'] [mark''] mark' (.missingUnionBlock mark'.text)
  /-- A rule begins with something else than a nonterminal. -/
  | lhs {t semicolon : Token} {skipped : List Token} (ht : t.is '%' = false)
      (hname : Name.isNonterminal t.text = false) (hskipped : ∀ t ∈ skipped, t.is ';' = false)
      (hsemicolon : semicolon.is ';' = true) :
      Damage .ruleHead ([t] ++ skipped ++ [semicolon]) [] t (.invalidLhs t.text)
  /-- The colon is missing behind a left-hand side. -/
  | colon {t colon : Token} (ht : t.is ':' = false) (hcolon : colon.is ':' = true) :
      Damage .colon [t] [colon, t] t (.missingColon t.text)

/-! ## Skipping -/

variable {s : State}

/-- Without a keyword everything up to the next `%` is skipped. -/
theorem consumeAll_skipped {ts : List Token} (hphase : s.phase = .declaredNames)
    (hkeyword : s.keyword = none) (hts : ∀ t ∈ ts, t.is '%' = false) : consumeAll ts s = s := by
  induction ts with
  | nil => rfl
  | cons t ts ih =>
    rw [List.forall_mem_cons] at hts
    -- the token is dropped and the state stays as it is
    have hreact : react t s = .done s := by
      simp [react, hphase, reactDeclaredNames, hkeyword, hts.1]
    have hconsume : consume t s = s := by rw [consume, hreact]
    rw [consumeAll_cons, hconsume]
    exact ih hts.2

/-- Without an open rule everything up to the next semicolon is skipped. -/
theorem consumeAll_skipped_rule {ts : List Token} (hphase : s.phase = .ruleBody)
    (hopen : s.openRule = none) (hts : ∀ t ∈ ts, t.is ';' = false) : consumeAll ts s = s := by
  induction ts with
  | nil => rfl
  | cons t ts ih =>
    rw [List.forall_mem_cons] at hts
    -- the same in a rule, where only a semicolon is waited for
    have hreact : react t s = .done s := by
      simp [react, hphase, reactRuleBody, hopen, hts.1]
    have hconsume : consume t s = s := by rw [consume, hreact]
    rw [consumeAll_cons, hconsume]
    exact ih hts.2

/-- The state in front of a keyword. -/
def State.atKeyword (s : State) : State :=
  { s with keyword := none, tag := none, phase := .keyword }

/-- A `%` ends the names of a declaration. -/
theorem consume_namesMark {mark : Token} (hphase : s.phase = .declaredNames)
    (hmark : mark.is '%' = true) : consume mark s = s.atKeyword := by
  simp [consume, react, hphase, reactDeclaredNames, hmark, State.atKeyword]

/-- A `%` begins a declaration, in front of which nothing is left over. -/
theorem consume_mark {mark : Token} (hphase : s.phase = .declaration ∨ s.phase = .declaredNames)
    (hs : Tidy s) (hmark : mark.is '%' = true) : consume mark s = s.atKeyword := by
  rcases hphase with hphase | hphase
  · -- in front of a declaration keyword and tag are gone already, so nothing is reset
    have hkeyword := hs.keyword (Or.inr hphase)
    have htag := hs.tag (Or.inr (Or.inl hphase))
    have hgoto : s.goto .keyword = s.atKeyword := by
      rw [State.atKeyword, ← hkeyword, ← htag]
      rfl
    simp [consume, react, hphase, reactDeclaration, hmark, hgoto]
  · exact consume_namesMark hphase hmark

/-- Whatever is skipped up to the next `%` is forgotten. -/
theorem consumeAll_recover {ts : List Token} {mark : Token} (hphase : s.phase = .declaredNames)
    (hkeyword : s.keyword = none) (hts : ∀ t ∈ ts, t.is '%' = false)
    (hmark : mark.is '%' = true) : consumeAll (ts ++ [mark]) s = s.atKeyword := by
  rw [consumeAll_append, consumeAll_skipped hphase hkeyword hts]
  exact consume_namesMark hphase hmark

/-! ## Damaged pieces -/

/-- The state in which the rest of a declaration is skipped. -/
def State.skipping (s : State) : State :=
  { s with keyword := none, tag := none, phase := .declaredNames }

/-- A diagnostic that is the first one amends the state. -/
theorem report_eq_amend {line : Nat} {problem : Problem} (herrors : s.errors = []) :
    s.report line problem = s.amend [⟨⟨s.file, line⟩, problem⟩] id := by
  simp [State.report, State.amend, herrors]

/-- A declaration that is skipped leaves only its diagnostic behind. -/
theorem consumeAll_declaration {ts skipped : List Token} {mark mark' : Token} {line : Nat}
    {problem : Problem} (hphase : s.phase = .declaration ∨ s.phase = .declaredNames) (hs : Tidy s)
    (herrors : s.errors = []) (hts : consumeAll ts s = s.skipping.report line problem)
    (hskipped : ∀ t ∈ skipped, t.is '%' = false) (hmark : mark.is '%' = true)
    (hmark' : mark'.is '%' = true) :
    consumeAll (ts ++ skipped ++ [mark]) s =
      (consumeAll [mark'] s).amend [⟨⟨s.file, line⟩, problem⟩] id := by
  -- the diagnostic does not depend on keyword and tag, which the mark resets
  have hforget : (s.skipping.report line problem).atKeyword = s.atKeyword.report line problem := rfl
  have hrecover := consumeAll_recover (s := s.skipping.report line problem) rfl rfl hskipped hmark
  calc consumeAll (ts ++ skipped ++ [mark]) s
      = consumeAll (skipped ++ [mark]) (s.skipping.report line problem) := by
        rw [List.append_assoc, consumeAll_append, hts]
    _ = s.atKeyword.amend [⟨⟨s.file, line⟩, problem⟩] id := by
        rw [hrecover, hforget]
        exact report_eq_amend herrors
    _ = (consumeAll [mark'] s).amend [⟨⟨s.file, line⟩, problem⟩] id :=
        congrArg (State.amend _ id) (consume_mark hphase hs hmark').symm

/-- Behind `%union` the keyword is kept until the next token. -/
theorem consume_union {word : Token} (hunion : Keyword.ofWord? word.text = some .union) :
    consume word s.atKeyword =
      { s with keyword := some .union, tag := none, phase := .tagOrBlock } := by
  have hword : word.is '%' = false := Token.is_eq_false_of_keyword hunion
  simp [consume, react, State.atKeyword, reactKeyword, hword, hunion]

/-- A token that is no code block ends `%union`, and is read again as a name. -/
theorem consume_noBlock {t : Token} (hkeyword : s.keyword = some .union)
    (hphase : s.phase = .tagOrBlock) (hblock : t.isBlock = false) :
    consume t s = consume t { s.report t.line (.missingUnionBlock t.text) with
      keyword := none, phase := .declaredNames } := by
  apply consume_of_again
  simp [react, hphase, reactTagOrBlock, hkeyword, readUnion, hblock]

/-- An empty block at the top becomes empty imported code. -/
theorem consumeAll_emptyBlock {mark block mark' : Token} (hphase : s.phase = .preamble)
    (hmark : mark.is '%' = true) (hblock : block.text = "\x7b%\x7d")
    (hmark' : mark'.is '%' = true) :
    consumeAll [mark, block, mark'] s =
      (s.modifyGrammar fun g => { g with importCode := some ⟨"", block.line⟩ }).goto .keyword := by
  have htext : block.text.toList = ['{'] ++ [] ++ ['%', '}'] := by rw [hblock]; rfl
  have hread : block.isImportBlock = true := Token.isImportBlock_of_text htext
  have hcode : block.trimmed 1 2 = "" := Token.trimmed_eq htext
  have htop : consume mark s = s.goto .importBlock := by
    simp [consume, react, hphase, reactPreamble, hmark]
  rw [consumeAll_cons, htop]
  simp [consumeAll, consume, react, State.goto, reactImportBlock, hread, hcode,
    State.modifyGrammar, reactDeclaration, hmark']

/-- Without its block, the top of a file only loses the imported code. -/
theorem consumeAll_preamble {mark t mark₁ block mark₂ : Token} (hphase : s.phase = .preamble)
    (hs : Tidy s) (herrors : s.errors = []) (hmark : mark.is '%' = true)
    (ht : t.isImportBlock = false) (hmark₁ : mark₁.is '%' = true)
    (hblock : block.text = "\x7b%\x7d") (hmark₂ : mark₂.is '%' = true) :
    consumeAll [mark, t] s = (consumeAll [mark₁, block, mark₂, t] s).amend
      [⟨⟨s.file, t.line⟩, .missingImportBlock t.text⟩] fun _ => none := by
  -- in front of the block there was no imported code, so dropping it changes nothing
  have himport : s.grammar.importCode = none := hs.importCode (by rw [hphase]; rfl)
  have htop : consume mark s = s.goto .importBlock := by
    simp [consume, react, hphase, reactPreamble, hmark]
  have hrepaired := consumeAll_emptyBlock hphase hmark₁ hblock hmark₂
  -- the state behind the repaired top
  let u : State :=
    (s.modifyGrammar fun g => { g with importCode := some ⟨"", block.line⟩ }).goto .keyword
  have hdamaged : ((s.goto .importBlock).report t.line (.missingImportBlock t.text)).goto .keyword =
      u.amend [⟨⟨s.file, t.line⟩, .missingImportBlock t.text⟩] fun _ => none := by
    simp [State.goto, State.report, State.amend, State.modifyGrammar, u, herrors, ← himport]
  -- the token that was found is read again as a keyword
  have hagain : react t (s.goto .importBlock) =
      .again (((s.goto .importBlock).report t.line (.missingImportBlock t.text)).goto
        .keyword) := by
    simp [react, State.goto, reactImportBlock, ht]
  calc consumeAll [mark, t] s
      = consume t (u.amend [⟨⟨s.file, t.line⟩, .missingImportBlock t.text⟩] fun _ => none) := by
        rw [consumeAll_cons, htop, ← hdamaged]
        exact consume_of_again hagain
    -- from here on the two readings run side by side
    _ = (consume t u).amend [⟨⟨s.file, t.line⟩, .missingImportBlock t.text⟩] fun _ => none :=
        consume_amend t (by simp [u, State.goto, Phase.part])
    _ = (consumeAll [mark₁, block, mark₂, t] s).amend
          [⟨⟨s.file, t.line⟩, .missingImportBlock t.text⟩] fun _ => none :=
        congrArg (fun s => (consume t s).amend _ _) hrepaired.symm

/-- A rule that is skipped leaves only its diagnostic behind. -/
theorem consumeAll_rule {t semicolon : Token} {skipped : List Token} (hphase : s.phase = .ruleHead)
    (hopen : s.openRule = none) (herrors : s.errors = []) (ht : t.is '%' = false)
    (hname : Name.isNonterminal t.text = false) (hskipped : ∀ t ∈ skipped, t.is ';' = false)
    (hsemicolon : semicolon.is ';' = true) :
    consumeAll ([t] ++ skipped ++ [semicolon]) s =
      s.amend [⟨⟨s.file, t.line⟩, .invalidLhs t.text⟩] id := by
  have hrule : consume t s =
      { s.report t.line (.invalidLhs t.text) with openRule := none, phase := .ruleBody } := by
    simp [consume, react, hphase, reactRuleHead, ht, hname]
  -- the semicolon leads back to the head of the next rule
  have hend : consume semicolon (consume t s) = (consume t s).goto .ruleHead := by
    rw [hrule]
    simp [consume, react, reactRuleBody, hsemicolon]
  have hback : (consume t s).goto .ruleHead = s.report t.line (.invalidLhs t.text) := by
    rw [hrule, ← hopen, ← hphase]
    rfl
  calc consumeAll ([t] ++ skipped ++ [semicolon]) s
      = consumeAll [semicolon] (consumeAll skipped (consume t s)) := by
        rw [consumeAll_append, consumeAll_append]
        rfl
    _ = consume semicolon (consume t s) := by
        rw [consumeAll_skipped_rule (by rw [hrule]) (by rw [hrule]) hskipped]
        rfl
    _ = s.report t.line (.invalidLhs t.text) := hend.trans hback
    _ = s.amend [⟨⟨s.file, t.line⟩, .invalidLhs t.text⟩] id := report_eq_amend herrors

/-- A missing colon is read as if it stood in front of the token. -/
theorem consume_colon {t colon : Token} (hphase : s.phase = .colon) (herrors : s.errors = [])
    (ht : t.is ':' = false) (hcolon : colon.is ':' = true) :
    consume t s =
      (consumeAll [colon, t] s).amend [⟨⟨s.file, t.line⟩, .missingColon t.text⟩] id := by
  have hagain : react t s = .again ((s.report t.line (.missingColon t.text)).goto .ruleBody) := by
    simp [react, hphase, reactColon, ht]
  have hread : consume colon s = s.goto .ruleBody := by
    simp [consume, react, hphase, reactColon, hcolon]
  -- the token is read again in the body, as it would be behind a colon
  calc consume t s
      = consume t ((s.goto .ruleBody).report t.line (.missingColon t.text)) :=
        consume_of_again hagain
    _ = (consume t (s.goto .ruleBody)).amend [⟨⟨s.file, t.line⟩, .missingColon t.text⟩] id := by
        rw [report_eq_amend (s := s.goto .ruleBody) herrors]
        exact consume_amend t fun _ => rfl
    _ = (consumeAll [colon, t] s).amend [⟨⟨s.file, t.line⟩, .missingColon t.text⟩] id := by
        rw [consumeAll_cons, hread]
        rfl

end Reading

/-- What becomes of the imported code when the damage is in the given phase. -/
def Phase.withoutImport (phase : Phase) (code : Option CodeBlock) : Option CodeBlock :=
  if phase = .preamble then none else code

namespace Reading

variable {s : State}

/-- A damaged piece is read as the repaired one, but for its diagnostic. -/
theorem Damage.consumeAll_eq {phase : Phase} {damaged repaired : List Token} {found : Token}
    {problem : Problem} (h : Damage phase damaged repaired found problem) (hs : Tidy s)
    (hopen : phase = .ruleHead → s.openRule = none) (hphase : s.phase = phase)
    (herrors : s.errors = []) :
    consumeAll damaged s =
      (consumeAll repaired s).amend [⟨⟨s.file, found.line⟩, problem⟩] phase.withoutImport := by
  -- only the top of a file loses its code
  have hdeclaration (h : phase = .declaration ∨ phase = .declaredNames) :
      phase.withoutImport = id := by
    rcases h with rfl | rfl <;> rfl
  cases h with
  | importBlock hmark ht hmark₁ hblock hmark₂ =>
    exact consumeAll_preamble hphase hs herrors hmark ht hmark₁ hblock hmark₂
  | @keyword _ hd mark _ mark' mark'' skipped hmark hword hunknown hskipped hmark' hmark'' =>
    rw [hdeclaration hd]
    rw [← hphase] at hd
    have hts : consumeAll [mark, found] s =
        s.skipping.report found.line (.unknownKeyword found.text) := by
      rw [consumeAll_cons, consume_mark hd hs hmark]
      simp [consumeAll, consume, react, State.atKeyword, reactKeyword, hword, hunknown,
        State.skipping]
    exact consumeAll_declaration hd hs herrors hts hskipped hmark' hmark''
  | @prec _ hd mark _ mark' mark'' skipped hmark hprec hskipped hmark' hmark'' =>
    rw [hdeclaration hd]
    rw [← hphase] at hd
    have hword : found.is '%' = false := Token.is_eq_false_of_keyword hprec
    have hts : consumeAll [mark, found] s = s.skipping.report found.line .precOutsideRule := by
      rw [consumeAll_cons, consume_mark hd hs hmark]
      simp [consumeAll, consume, react, State.atKeyword, reactKeyword, hword, hprec,
        State.skipping]
    exact consumeAll_declaration hd hs herrors hts hskipped hmark' hmark''
  | @union _ hd mark word _ mark' mark'' skipped hmark hunion ht hblock hskipped hmark'
      hmark'' =>
    rw [hdeclaration hd]
    rw [← hphase] at hd
    -- what is found instead of a block is read again, and skipped without a keyword
    have hts : consumeAll [mark, word, found] s =
        s.skipping.report found.line (.missingUnionBlock found.text) := by
      rw [consumeAll_cons, consume_mark hd hs hmark, consumeAll_cons, consume_union hunion,
        consumeAll_cons, consume_noBlock rfl rfl hblock]
      simp [consumeAll, consume, react, reactDeclaredNames, ht, State.skipping, State.report]
    exact consumeAll_declaration hd hs herrors hts hskipped hmark' hmark''
  | @unionMark _ hd mark word _ mark'' hmark hunion hmark' hmark'' =>
    rw [hdeclaration hd]
    rw [← hphase] at hd
    -- the mark that is found is no block either, and it begins the next declaration at once
    have hblock : found.isBlock = false := by
      simp [Token.isBlock, Token.first_eq_of_is hmark']
    have hts : consumeAll [mark, word, found] s =
        s.atKeyword.report found.line (.missingUnionBlock found.text) := by
      rw [consumeAll_cons, consume_mark hd hs hmark, consumeAll_cons, consume_union hunion,
        consumeAll_cons, consume_noBlock rfl rfl hblock, consume_namesMark rfl hmark']
      rfl
    have hread : consumeAll [mark''] s = s.atKeyword := consume_mark hd hs hmark''
    rw [hts, hread]
    exact report_eq_amend herrors
  | lhs ht hname hskipped hsemicolon =>
    exact consumeAll_rule hphase (hopen rfl) herrors ht hname hskipped hsemicolon
  | colon ht hcolon =>
    exact consume_colon hphase herrors ht hcolon

/-! ## Damaged files -/

/-- The trailing code is never damaged. -/
theorem Damage.phase_ne {phase : Phase} {damaged repaired : List Token} {found : Token}
    {problem : Problem} (h : Damage phase damaged repaired found problem) : phase ≠ .trailer := by
  cases h with
  | importBlock | lhs | colon => exact fun h => nomatch h
  | keyword hd | prec hd | union hd | unionMark hd =>
    rcases hd with rfl | rfl <;> exact fun h => nomatch h

/-- Behind the repaired top of a file the imported code is empty. -/
theorem Damage.importCode_eq {damaged repaired : List Token} {found : Token} {problem : Problem}
    (h : Damage .preamble damaged repaired found problem) (hphase : s.phase = .preamble) :
    (consumeAll repaired s).phase.part ≠ 0 ∧
      (consumeAll repaired s).grammar.importCode.map CodeBlock.code = some "" := by
  cases h with
  | keyword hd | prec hd | union hd | unionMark hd => rcases hd with hd | hd <;> cases hd
  | @importBlock _ _ mark₁ block mark₂ _ _ hmark₁ hblock hmark₂ =>
    have hbehind := consumeAll_emptyBlock hphase hmark₁ hblock hmark₂
    have hpart : (consumeAll [mark₁, block, mark₂] s).phase.part = 1 := by
      rw [hbehind]
      rfl
    -- the top is behind the reader, so the token that was found does not touch its code
    constructor
    · have hlater := part_consume found (consumeAll [mark₁, block, mark₂] s)
      rw [hpart] at hlater
      exact Nat.ne_of_gt hlater
    · have hkept := importCode_consumeAll (s := consumeAll [mark₁, block, mark₂] s) [found]
        (by rw [hpart]; exact Nat.one_ne_zero)
      rw [← consumeAll_append] at hkept
      rw [List.cons_append, List.cons_append, List.cons_append, List.nil_append] at hkept
      rw [hkept, hbehind]
      rfl

/-- A damaged piece of a file, whatever stands around it, costs exactly one diagnostic. Apart from
that one, and from the imported code if the block at the top is missing, the file is read as the
repaired one would be. -/
theorem consumeAll_of_damage {phase : Phase} {damaged repaired : List Token} {found : Token}
    {problem : Problem} (h : Damage phase damaged repaired found problem) (file : String)
    {before : List Token} (hphase : (consumeAll before (.initial file)).phase = phase)
    (after : List Token) :
    ∃ later,
      (consumeAll (before ++ repaired ++ after) (.initial file)).errors =
        (consumeAll before (.initial file)).errors ++ later ∧
      consumeAll (before ++ damaged ++ after) (.initial file) =
        { consumeAll (before ++ repaired ++ after) (.initial file) with
          errors := (consumeAll before (.initial file)).errors ++
            ⟨⟨file, found.line⟩, problem⟩ :: later
          grammar :=
            let grammar := (consumeAll (before ++ repaired ++ after) (.initial file)).grammar
            { grammar with
              importCode := if phase = .preamble then none else grammar.importCode } } ∧
      (phase = .preamble →
        (consumeAll (before ++ repaired ++ after) (.initial file)).grammar.importCode.map
          CodeBlock.code = some "") := by
  -- where the piece begins; what was reported up to there is set apart
  let s : State := { consumeAll before (.initial file) with errors := [] }
  have htidy : Tidy (consumeAll before (.initial file)) :=
    tidy_consumeAll (tidy_initial file) before
  have hs : Tidy s := ⟨htidy.importCode, htidy.keyword, htidy.tag⟩
  have hopen : phase = .ruleHead → s.openRule = none := by
    intro hhead
    have hagrees := agrees_consumeAll file before
    have hcurrent := hagrees.current_eq_none (by rw [hphase, hhead]; rfl)
    exact hagrees.openRule_eq_none hcurrent
  have hfile : s.file = file := by
    have htrailer : (consumeAll before (.initial file)).phase ≠ .trailer := by
      rw [hphase]
      exact h.phase_ne
    exact congrArg Prod.fst (frame_consumeAll htrailer)
  -- the repaired piece, from there
  let r : State := consumeAll repaired s
  have hpiece : consumeAll damaged s =
      r.amend [⟨⟨file, found.line⟩, problem⟩] phase.withoutImport := by
    rw [← hfile]
    exact h.consumeAll_eq hs hopen hphase rfl
  have hpart : r.phase.part = 0 → phase.withoutImport = id := by
    intro hhead
    by_cases hpreamble : phase = .preamble
    · subst hpreamble
      exact absurd hhead (h.importCode_eq (s := s) hphase).1
    · funext code
      exact if_neg hpreamble
  -- the diagnostics that were set apart come back in front of the later ones
  have hread (ts : List Token) : consumeAll (before ++ ts ++ after) (.initial file) =
      (consumeAll after (consumeAll ts s)).amend (consumeAll before (.initial file)).errors id := by
    rw [List.append_assoc, consumeAll_append, consumeAll_eq_amend, consumeAll_append]
  have hdamaged := hread damaged
  rw [hpiece, consumeAll_amend after hpart] at hdamaged
  refine ⟨(consumeAll after r).errors, ?_, ?_, ?_⟩
  · rw [hread repaired]
    rfl
  · rw [hread repaired, hdamaged]
    rfl
  · rintro rfl
    obtain ⟨hlater, hcode⟩ := h.importCode_eq (s := s) hphase
    rw [hread repaired]
    exact (congrArg _ (importCode_consumeAll after hlater)).trans hcode

/-- A misspelt keyword costs its own declaration, and nothing of the next one. -/
theorem consumeAll_of_damage_misspelt :
    let top : List Token := [⟨"%", 1⟩, ⟨"\x7b%\x7d", 1⟩]
    let misspelt : List Token := [⟨"%", 2⟩, ⟨"tokne", 2⟩, ⟨"<num>", 2⟩, ⟨"A", 2⟩, ⟨"%", 3⟩]
    let next : List Token := [⟨"token", 3⟩, ⟨"B", 3⟩]
    Damage .declaration misspelt [⟨"%", 3⟩] ⟨"tokne", 2⟩ (.unknownKeyword "tokne") ∧
      (consumeAll top (.initial "names.y")).phase = .declaration ∧
      consumeAll (top ++ misspelt ++ next) (.initial "names.y") =
        { consumeAll (top ++ [⟨"%", 3⟩] ++ next) (.initial "names.y") with
          errors := [⟨⟨"names.y", 2⟩, .unknownKeyword "tokne"⟩] } := by
  intro top misspelt next
  have hskipped : ∀ t ∈ [(⟨"<num>", 2⟩ : Token), ⟨"A", 2⟩], t.is '%' = false := by decide
  have hdamage : Damage .declaration misspelt [⟨"%", 3⟩] ⟨"tokne", 2⟩ (.unknownKeyword "tokne") :=
    .keyword (Or.inl rfl) (by decide) (by decide) (by decide) hskipped (by decide) (by decide)
  have hphase : (consumeAll top (.initial "names.y")).phase = .declaration := by decide
  obtain ⟨later, herrors, hdamaged, -⟩ := consumeAll_of_damage hdamage "names.y" hphase next
  have hlater : later = [] := by
    have hnone : (consumeAll (top ++ [⟨"%", 3⟩] ++ next) (.initial "names.y")).errors = [] := by
      decide
    rw [hnone] at herrors
    exact (List.append_eq_nil_iff.mp herrors.symm).2
  rw [hlater] at hdamaged
  exact ⟨hdamage, hphase, hdamaged⟩

end Reading

end YaccGrammar
