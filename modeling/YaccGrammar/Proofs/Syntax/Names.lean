import YaccGrammar.Proofs.Syntax.Silence
import YaccGrammar.Proofs.Text.TokenShape

/-!
# The shapes of names

Names of symbols are taken from the tokens of a text, on the left-hand side of a rule, on a
right-hand side, and in a declaration, and each place has a check of its own. In rules, and in
declarations of nonterminals, only words and literals pass. A declaration of terminals asks for a
name without small letters, and also takes what is no name at all: any sign but those that are read
as something else there, and blocks of code.

## Main statements

- `Step.mentions_eq`: what one token adds to the names.
- `exists_origin_of_name`: where a name in the table comes from.
- `names_of_silent`: what the names are in a reading without diagnostics.
-/

namespace YaccGrammar

namespace Name

open Letter Text

/-! ## Shapes -/

/-- The name is a word. -/
def IsWord (n : String) : Prop := n.toList ≠ [] ∧ n.toList.all isWordChar = true

/-- The name is a literal in quotes. -/
def IsQuoted (n : String) : Prop :=
  ∃ q t, isQuote q = true ∧ IsLiteralTail q t ∧ n.toList = q :: t

/-- The text of a token that is neither a word nor a literal, and passes for a terminal. -/
inductive IsStray (n : String) : Prop where
  | sign {c : Char} (hn : n.toList = [c]) (hblank : isBlank c = false)
      (hword : isWordChar c = false) (hquote : isQuote c = false) (htag : c ≠ '<')
      (hcode : c ≠ '{') (hmark : c ≠ '%')
  | code {body : List Char} (hn : n.toList = '{' :: (body ++ ['}']))
      (hbody : IsBody (some '}') body) (hcapital : allCapital n = true)

variable {n : String}

/-- What passes as a left-hand side is a word. -/
theorem isWord_of_isNonterminal (h : isNonterminal n = true) : IsWord n := by
  simp only [isNonterminal, Bool.and_eq_true] at h
  refine ⟨fun hnil => ?_, h.2⟩
  simp [hnil] at h

/-- What passes for a literal begins with a quote. -/
theorem isLiteral_of_cons {c : Char} {s : List Char} (hn : n.toList = c :: s)
    (h : isLiteral n = true) : isQuote c = true := by
  simp only [isLiteral, hn, Bool.and_eq_true] at h
  exact h.1

/-- What may stand on a right-hand side is a word or a literal. -/
theorem isWord_or_isQuoted_of_isSymbol (hshape : IsTokenShaped n.toList)
    (h : isSymbol n = true) : IsWord n ∨ IsQuoted n := by
  -- without a word character in front, only a quote is accepted
  have hother {c : Char} {s : List Char} (hn : n.toList = c :: s) (hword : isWordChar c = false) :
      isQuote c = true := by
    simp only [isSymbol, hn, List.head?_cons, Option.any_some, hword, Bool.false_or] at h
    exact isLiteral_of_cons hn h
  generalize hn : n.toList = s at hshape
  cases hshape with
  | word hne hs => exact .inl ⟨hn ▸ hne, hn ▸ hs⟩
  | literal hq ht => exact .inr ⟨_, _, hq, ht, hn⟩
  | tag => exact absurd (hother hn (by decide)) (by decide)
  | code => exact absurd (hother hn (by decide)) (by decide)
  | sign _ hword hquote => exact absurd (hother hn hword) (by simp [hquote])

/-- What passes for a terminal is a word, a literal or stray. -/
theorem shape_of_isTerminal (hshape : IsTokenShaped n.toList) (hmark : n ≠ "%")
    (htag : n.toList.head? ≠ some '<') (h : isTerminal n = true) :
    IsWord n ∨ IsQuoted n ∨ IsStray n := by
  generalize hn : n.toList = s at hshape
  cases hshape with
  | word hne hs => exact .inl ⟨hn ▸ hne, hn ▸ hs⟩
  | literal hq ht => exact .inr (.inl ⟨_, _, hq, ht, hn⟩)
  | tag => exact absurd (by rw [hn]; rfl) htag
  -- a block that passes has no small letters, as it is no literal
  | code hbody =>
    rw [isTerminal, Bool.or_eq_true] at h
    rcases h with hliteral | hcapital
    · exact absurd (isLiteral_of_cons hn hliteral) (by decide)
    · exact .inr (.inr (.code hn hbody hcapital))
  | @sign c hblank hword hquote htag hcode =>
    refine .inr (.inr (.sign hn hblank hword hquote htag hcode ?_))
    rintro rfl
    exact hmark (String.toList_injective hn)

/-- A stray name begins with something that begins no word, no literal, no tag and no mark. -/
theorem exists_cons_of_isStray (h : IsStray n) :
    ∃ c s, n.toList = c :: s ∧ isWordChar c = false ∧ isQuote c = false ∧ c ≠ '<' ∧ c ≠ '%' := by
  cases h with
  | sign hn _ hword hquote htag _ hmark => exact ⟨_, _, hn, hword, hquote, htag, hmark⟩
  | code hn => exact ⟨_, _, hn, by decide, by decide, by decide, by decide⟩

/-- What is stray names nothing. -/
theorem not_isWord_of_isStray (h : IsStray n) : ¬ IsWord n ∧ ¬ IsQuoted n := by
  obtain ⟨c, s, hn, hword, hquote, -, -⟩ := exists_cons_of_isStray h
  constructor
  · rintro ⟨-, hall⟩
    simp [hn, hword] at hall
  · rintro ⟨q, t, hq, -, hn'⟩
    obtain ⟨rfl, -⟩ := List.cons.inj (hn.symm.trans hn')
    simp [hq] at hquote

/-- A sign has no letters. -/
theorem isTerminal_of_isStray (h : IsStray n) : isTerminal n = true := by
  rw [isTerminal, Bool.or_eq_true]
  cases h with
  | @sign c hn _ hword =>
    have hletter : isAlphabetic c = false := by
      rw [Bool.eq_false_iff]
      intro halpha
      simp [isWordChar, isAlphanumeric_of_isAlphabetic halpha] at hword
    exact .inr (by simp [allCapital, hn, hletter])
  | code _ _ hcapital => exact .inr hcapital

end Name

namespace Reading

open Text Tokenizer

variable {w w' : Record} {phase phase' : Phase} {s : State} {t : Token} {ts : List Token}
  {file : String}

/-! ## Where names come from -/

/-- The keywords that declare terminals. -/
def terminalKeywords : List Keyword := [.token, .left, .right, .nonassoc]

/-- Keywords that declare terminals accept what passes for one. -/
theorem accepts_of_mem_terminalKeywords {k : Keyword} (hk : k ∈ terminalKeywords) (n : String) :
    accepts k n = Name.isTerminal n := by
  cases k with
  | token | left | right | nonassoc => rfl
  | type | start | prec | union => simp [terminalKeywords] at hk

/-- The names of a declaration of terminals are being read. -/
def State.DeclaresTerminals (s : State) : Prop :=
  ∃ k ∈ terminalKeywords, s.keyword = some k ∧
    (s.phase = .tagOrBlock ∨ s.phase = .declaredNames)

/-- What one token adds to the names. -/
theorem Step.mentions_eq (hstep : Step w phase t w' phase') (hw : w.Fits phase) :
    w'.mentions = w.mentions ∨ w'.mentions = w.mentions ++ [t.text] ∧
      (Name.isNonterminal t.text = true ∨ Name.isSymbol t.text = true ∨
        ∃ k tag, k ∈ terminalKeywords ∧ w.line = some (k, tag) ∧
          (phase = .tagOrBlock ∨ phase = .declaredNames) ∧ k.Names t) := by
  induction hstep with
  | untagged hline hk _ _ ih =>
    -- the token is read among the names
    rcases ih (hw.untagged hline hk) with hsame | ⟨hmentions, hplace⟩
    · exact .inl hsame
    refine .inr ⟨hmentions, ?_⟩
    rcases hplace with hplace | hplace | ⟨k, tag, hterminal, hline, -, hnames⟩
    · exact .inl hplace
    · exact .inr (.inl hplace)
    · exact .inr (.inr ⟨k, tag, hterminal, hline, .inl rfl, hnames⟩)
  | @name t k tag hline ht _ =>
    refine .inr ⟨rfl, ?_⟩
    obtain ⟨k', tag', hline', hprec, hunion⟩ := hw.line rfl
    rw [hline] at hline'
    cases hline'
    -- the keyword tells what kind of name is accepted
    have haccepts := ht.accepts
    cases k with
    | type | start => exact .inl haccepts
    | token | left | right | nonassoc =>
      exact .inr (.inr ⟨_, tag, by simp [terminalKeywords], hline, .inr rfl, ht⟩)
    | prec => exact absurd rfl hprec
    | union => exact absurd rfl hunion
  | head ht => exact .inr ⟨rfl, .inl ht⟩
  | symbol _ ht => exact .inr ⟨rfl, .inr (.inl ht)⟩
  | _ => exact .inl rfl

/-- Along steps it stays known what is being read. -/
theorem Steps.fits (hsteps : Steps w phase ts w' phase') (hw : w.Fits phase) : w'.Fits phase' := by
  induction hsteps with
  | nil => exact hw
  | cons hstep _ ih => exact ih (hstep.fits hw)

/-- Reading without a diagnostic leaves a record. -/
theorem exists_record (hsilent : (consumeAll ts (.initial file)).errors = []) :
    ∃ w phase, Stands w phase (consumeAll ts (.initial file)) ∧ w.Fits phase := by
  have hinitial := stands_initial file
  obtain ⟨w, phase, hsteps⟩ := hinitial.exists_steps Record.fits_initial hsilent
  exact ⟨w, phase, hinitial.of_steps hsteps, hsteps.fits Record.fits_initial⟩

/-- The names of the table are those that were mentioned. -/
theorem Stands.mem_names (hs : Stands w phase s) {n : String} :
    n ∈ s.grammar.table.names ↔ n ∈ w.mentions := by
  obtain ⟨h, hh, rfl⟩ := hs.agrees
  rw [hh.names, History.mem_names]
  rfl

/-- Where a name comes from: it is a word or a literal, or it is stray and was read in a declaration
of terminals. -/
theorem exists_origin_of_name (hshaped : ∀ t ∈ ts, IsTokenShaped t.text.toList)
    (hsilent : (consumeAll ts (.initial file)).errors = []) {n : String}
    (hn : n ∈ (consumeAll ts (.initial file)).grammar.table.names) :
    Name.IsWord n ∨ Name.IsQuoted n ∨ Name.IsStray n ∧ ∃ us k vs, ts = us ++ k :: vs ∧
      k.text = n ∧ (consumeAll us (.initial file)).DeclaresTerminals := by
  -- the last token adds at most its own text to the names of what is read before it
  induction ts using List.reverseRecOn with
  | nil => cases hn
  | append_singleton us t ih =>
    have hconsume : consumeAll (us ++ [t]) (.initial file) =
        consume t (consumeAll us (.initial file)) := by
      simp [consumeAll]
    rw [hconsume] at hsilent hn
    have hbefore := errors_eq_nil_of_consumeAll [t] hsilent
    obtain ⟨w, phase, hs, hw⟩ := exists_record hbefore
    obtain ⟨w', phase', hstep⟩ := hs.exists_step hw hsilent
    have hshape := hshaped t (by simp)
    rw [(hs.of_step hstep).mem_names] at hn
    -- a name that was there before has its origin in the earlier tokens
    have hold (hn : n ∈ w.mentions) : Name.IsWord n ∨ Name.IsQuoted n ∨ Name.IsStray n ∧
        ∃ us' k vs, us ++ [t] = us' ++ k :: vs ∧ k.text = n ∧
          (consumeAll us' (.initial file)).DeclaresTerminals := by
      have hearlier := ih (fun k hk => hshaped k (by simp [hk])) hbefore (hs.mem_names.mpr hn)
      rcases hearlier with hword | hquoted | ⟨hstray, us', k, vs, rfl, hk, hplace⟩
      · exact .inl hword
      · exact .inr (.inl hquoted)
      · exact .inr (.inr ⟨hstray, us', k, vs ++ [t], by simp, hk, hplace⟩)
    rcases hstep.mentions_eq hw with hsame | ⟨hmentions, hplace⟩
    · exact hold (hsame ▸ hn)
    rw [hmentions, List.mem_append, List.mem_singleton] at hn
    rcases hn with hn | rfl
    · exact hold hn
    rcases hplace with hplace | hplace | ⟨k, tag, hk, hline, hphase, hnames⟩
    · exact .inl (Name.isWord_of_isNonterminal hplace)
    · rcases Name.isWord_or_isQuoted_of_isSymbol hshape hplace with hword | hquoted
      · exact .inl hword
      · exact .inr (.inl hquoted)
    · -- a name that is new in a declaration was accepted as a terminal
      have hterminal : Name.isTerminal t.text = true := by
        rw [← accepts_of_mem_terminalKeywords hk]
        exact hnames.accepts
      have hdeclares : (consumeAll us (.initial file)).DeclaresTerminals :=
        ⟨k, hk, hs.keyword_eq hline, by rwa [hs.phase]⟩
      have htag : t.text.toList.head? ≠ some '<' := by
        intro hhead
        obtain ⟨u, hu⟩ := List.head?_eq_some_iff.mp hhead
        exact hnames.tag (Token.first_of_text hu)
      rcases Name.shape_of_isTerminal hshape hnames.mark htag hterminal with
        hword | hquoted | hstray
      · exact .inl hword
      · exact .inr (.inl hquoted)
      · exact .inr (.inr ⟨hstray, us, t, [], rfl, rfl, hdeclares⟩)

/-- Stray names are taken wherever terminals are declared. -/
theorem takes_stray (hsilent : (consumeAll ts (.initial file)).errors = [])
    (hdeclares : (consumeAll ts (.initial file)).DeclaresTerminals)
    (hstray : Name.IsStray t.text) :
    (consume t (consumeAll ts (.initial file))).errors = [] ∧
      t.text ∈ (consume t (consumeAll ts (.initial file))).grammar.table.names := by
  obtain ⟨w, phase, hs, hw⟩ := exists_record hsilent
  obtain ⟨k, hk, hkeyword, hphase⟩ := hdeclares
  -- a stray name is no mark and no tag, and passes for a terminal
  have hnames : k.Names t := by
    obtain ⟨c, u, htext, -, -, htag, hmark⟩ := Name.exists_cons_of_isStray hstray
    refine ⟨fun hpercent => ?_, ?_, ?_⟩
    · rw [hpercent] at htext
      exact hmark (List.cons.inj htext).1.symm
    · rwa [Token.first_of_text htext]
    · rw [accepts_of_mem_terminalKeywords hk]
      exact Name.isTerminal_of_isStray hstray
  -- the keyword declares terminals, so it is neither of the two
  have hstart : k ≠ .start := by
    rintro rfl
    revert hk
    decide
  have hunion : k ≠ .union := by
    rintro rfl
    revert hk
    decide
  rw [hs.phase] at hphase
  -- the token makes a step, right behind the keyword or among the names
  obtain ⟨w', phase', hstep, hmentions⟩ :
      ∃ w' phase', Step w phase t w' phase' ∧ t.text ∈ w'.mentions := by
    rcases hphase with rfl | rfl
    · obtain ⟨k', hline, -⟩ := hw.keyword rfl
      have hsame := hkeyword.symm.trans (hs.keyword_eq hline)
      cases hsame
      exact ⟨_, _, .untagged hline hunion hnames.tag (.name hline hnames fun h => absurd h hstart),
        by simp⟩
    · obtain ⟨k', tag, hline, -, -⟩ := hw.line rfl
      have hsame := hkeyword.symm.trans (hs.keyword_eq hline)
      cases hsame
      exact ⟨_, _, .name hline hnames fun h => absurd h hstart, by simp⟩
  have hs' := hs.of_step hstep
  exact ⟨hs'.errors, hs'.mem_names.mpr hmentions⟩

/-- What the names are in a reading without diagnostics. A name is a word or a literal, wherever it
stands, unless it was read in a declaration of terminals: there it may also be a sign that is read
as nothing else, or a block of code without small letters. All of these are taken there without a
diagnostic, although they name nothing. -/
theorem names_of_silent {text : String} {t : Tokenizer} (htakes : Takes (.ofString text) ts t)
    (hsilent : (consumeAll ts (.initial file)).errors = []) :
    (∀ n ∈ (consumeAll ts (.initial file)).grammar.table.names,
      Name.IsWord n ∨ Name.IsQuoted n ∨ Name.IsStray n ∧ ∃ us k vs, ts = us ++ k :: vs ∧
        k.text = n ∧ (consumeAll us (.initial file)).DeclaresTerminals) ∧
    ((consumeAll ts (.initial file)).DeclaresTerminals → ∀ k : Token, Name.IsStray k.text →
      (consume k (consumeAll ts (.initial file))).errors = [] ∧
        k.text ∈ (consume k (consumeAll ts (.initial file))).grammar.table.names) := by
  constructor
  · intro n hn
    exact exists_origin_of_name htakes.isTokenShaped hsilent hn
  · intro hdeclares k hstray
    exact takes_stray hsilent hdeclares hstray

/-- A block of code behind `%token` is taken for the name of a terminal. -/
theorem names_of_silent_block :
    let ts : List Token := [⟨"%", 1⟩, ⟨"\x7b%\x7d", 1⟩, ⟨"%", 1⟩, ⟨"token", 1⟩]
    (consumeAll ts (.initial "list.y")).errors = [] ∧
      (consume ⟨"\x7b\x7d", 1⟩ (consumeAll ts (.initial "list.y"))).errors = [] ∧
      "\x7b\x7d" ∈
        (consume ⟨"\x7b\x7d", 1⟩ (consumeAll ts (.initial "list.y"))).grammar.table.names := by
  intro ts
  have htakes : Takes (.ofString "%\x7b%\x7d%token") ts ⟨⟨none, []⟩, 1, 1⟩ :=
    .cons rfl (.cons rfl (.cons rfl (.cons rfl (.nil _))))
  have hsilent : (consumeAll ts (.initial "list.y")).errors = [] := rfl
  have hdeclares : (consumeAll ts (.initial "list.y")).DeclaresTerminals :=
    ⟨.token, by decide, rfl, .inl rfl⟩
  have hstray : Name.IsStray "\x7b\x7d" := .code rfl .nil (by decide)
  exact ⟨hsilent, (names_of_silent htakes hsilent).2 hdeclares ⟨"\x7b\x7d", 1⟩ hstray⟩

/-- A slash becomes a terminal without a diagnostic. -/
theorem slash_declared :
    ∃ ts t, Takes (.ofString "%\x7b%\x7d%token /") ts t ∧
      (consumeAll ts (.initial "list.y")).errors = [] ∧
      ∃ n ∈ (consumeAll ts (.initial "list.y")).grammar.table.names,
        ¬ Name.IsWord n ∧ ¬ Name.IsQuoted n := by
  let ts : List Token := [⟨"%", 1⟩, ⟨"\x7b%\x7d", 1⟩, ⟨"%", 1⟩, ⟨"token", 1⟩, ⟨"/", 1⟩]
  have htakes : Takes (.ofString "%\x7b%\x7d%token /") ts ⟨⟨none, []⟩, 1, 1⟩ :=
    .cons rfl (.cons rfl (.cons rfl (.cons rfl (.cons rfl (.nil _)))))
  have hstray : Name.IsStray "/" :=
    .sign rfl (by decide) (by decide) (by decide) (by decide) (by decide) (by decide)
  exact ⟨ts, _, htakes, rfl, "/", by decide, Name.not_isWord_of_isStray hstray⟩

end Reading

end YaccGrammar
