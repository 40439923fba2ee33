import YaccGrammar.Reading.Step

/-!
# What reading leaves alone

Reading a token never changes the name of the file, and the trailing code only where trailing code
is read. Reading that has got to the trailing code stays there.

## Main statements

- `frame_consumeAll`, `phase_consumeAll_of_trailer`.
-/

namespace YaccGrammar.Reading

/-- The state without its symbols, its rules and its diagnostics. -/
def State.setting (s : State) : State :=
  { s with
    openRule := none
    nextPrecedence := 0
    errors := []
    grammar := { s.grammar with table := {}, rules := [], declaredStart := none } }

/-- The name of the file and the trailing code. -/
def State.frame (s : State) : String × Option CodeBlock := (s.file, s.grammar.trailingCode)

/-- A state with the same setting has the same frame. -/
theorem frame_eq_of_setting {s s' : State} (h : s'.setting = s.setting) : s'.frame = s.frame :=
  congrArg (fun s => s.frame) h

/-- A state with the same setting is in the same phase. -/
theorem phase_eq_of_setting {s s' : State} (h : s'.setting = s.setting) : s'.phase = s.phase :=
  congrArg (fun s => s.phase) h

/-! ## Parts of reactions -/

/-- A declaration writes symbols, precedences, the start symbol and diagnostics. -/
theorem setting_declare (k : Keyword) (t : Token) (s : State) :
    (declare k t s).setting = s.setting := by
  -- the state in its parts, so that each case ends in the same parts
  obtain ⟨file, phase, keyword, tag, openRule, next, grammar, errors⟩ := s
  unfold declare
  cases k with
  | prec | union => cases tag <;> rfl
  | type | token | left | right | nonassoc =>
    dsimp only
    split
    · cases tag <;> rfl
    · cases tag <;> rfl
  | start =>
    dsimp only
    split
    · cases tag <;> rfl
    · cases tag with
      | none =>
        dsimp only
        split <;> rfl
      | some tag =>
        dsimp only
        split <;> rfl

/-- The check for empty alternatives writes diagnostics only. -/
theorem setting_checkEmpty (id : RuleId) (lhs : SymbolId) (line : Nat) (s : State) :
    (checkEmpty id lhs line s).setting = s.setting := by
  unfold checkEmpty
  dsimp only
  split
  · rfl
  · rfl

/-- A bar writes symbols, rules and diagnostics. -/
theorem setting_newAlternative (id : RuleId) (line : Nat) (s : State) :
    (newAlternative id line s).setting = s.setting := by
  unfold newAlternative
  split
  · rfl
  · dsimp only
    split
    · split
      · exact setting_checkEmpty id _ line s
      · exact setting_checkEmpty id _ line s
    · rfl

/-- A code block is written to a rule, or reported. -/
theorem setting_attachCode (id : RuleId) (t : Token) (s : State) :
    (attachCode id t s).setting = s.setting := by
  unfold attachCode
  split
  · rfl
  · split
    · rfl
    · rfl

/-- A semicolon closes the open rule and moves to where the next one may begin. -/
theorem setting_endRule (id : RuleId) (line : Nat) (s : State) :
    (endRule id line s).setting = (s.goto .ruleHead).setting := by
  have hcheck (lhs : SymbolId) := setting_checkEmpty id lhs line { s with openRule := none }
  unfold endRule
  dsimp only
  split
  · split
    · exact congrArg (State.goto · .ruleHead) (hcheck _)
    · rfl
  · rfl

/-! ## Tokens -/

/-- In front of the trailing code a reaction changes neither it nor the name of the file. -/
theorem frame_react (t : Token) {s : State} (hphase : s.phase ≠ .trailer) :
    (react t s).state.frame = s.frame := by
  unfold react
  -- what reactions change is the phase, the declaration, the rules and the other codes
  cases hs : s.phase with
  | preamble =>
    dsimp only [reactPreamble]
    split <;> rfl
  | importBlock =>
    dsimp only [reactImportBlock]
    split <;> rfl
  | declaration =>
    dsimp only [reactDeclaration]
    split <;> rfl
  | keyword =>
    dsimp only [reactKeyword]
    split
    · rfl
    · dsimp only [Reaction.state]
      split <;> rfl
  | tagOrBlock =>
    dsimp only [reactTagOrBlock]
    split
    · unfold readUnion
      split
      · cases hunion : s.grammar.unionCode <;> rfl
      · rfl
    split <;> rfl
  | declaredNames =>
    dsimp only [reactDeclaredNames]
    split
    · rfl
    · dsimp only [Reaction.state]
      split
      · rfl
      split
      · rfl
      · exact (frame_eq_of_setting (setting_declare _ t s) :)
  | ruleHead =>
    dsimp only [reactRuleHead, Reaction.state]
    split
    · split <;> rfl
    split <;> rfl
  | colon =>
    dsimp only [reactColon]
    split <;> rfl
  | ruleBody =>
    dsimp only [reactRuleBody, Reaction.state]
    split
    · split <;> rfl
    split
    · exact (frame_eq_of_setting (setting_newAlternative _ t.line s) :)
    split
    · exact (frame_eq_of_setting (setting_attachCode _ t s) :)
    split
    · rfl
    split
    · exact (frame_eq_of_setting (setting_endRule _ t.line s) :)
    split <;> rfl
  | precKeyword =>
    dsimp only [reactPrecKeyword, Reaction.state]
    split <;> rfl
  | precSymbol =>
    dsimp only [reactPrecSymbol, Reaction.state]
    split <;> rfl
  | afterPrec =>
    dsimp only [reactAfterPrec, Reaction.state]
    split
    · rfl
    split
    · exact (frame_eq_of_setting (setting_attachCode _ t s) :)
    split
    · exact (frame_eq_of_setting (setting_newAlternative _ t.line s) :)
    split
    · exact (frame_eq_of_setting (setting_endRule _ t.line s) :)
    · rfl
  | trailerMark =>
    dsimp only [reactTrailerMark, Reaction.state]
    split <;> rfl
  -- only here the trailing code is written
  | trailer => contradiction

/-- The phases in which a token may be read again. -/
theorem phase_of_again {t : Token} {s s' : State} (h : react t s = .again s') :
    s'.phase = .keyword ∨ s'.phase = .declaredNames ∨ s'.phase = .ruleBody := by
  unfold react at h
  -- three phases hand a token on to the next phase
  cases hs : s.phase with
  | importBlock =>
    simp only [hs, reactImportBlock] at h
    split at h
    · cases h
    · cases h
      exact Or.inl rfl
  | tagOrBlock =>
    simp only [hs, reactTagOrBlock, readUnion] at h
    split at h
    · split at h
      · cases h
      · cases h
        exact Or.inr (Or.inl rfl)
    split at h
    · cases h
    · cases h
      exact Or.inr (Or.inl rfl)
  | colon =>
    simp only [hs, reactColon] at h
    split at h
    · cases h
    · cases h
      exact Or.inr (Or.inr rfl)
  | keyword =>
    simp only [hs, reactKeyword] at h
    split at h
    · cases h
    · cases h
  | _ =>
    rw [hs] at h
    cases h

/-- In front of the trailing code a token changes neither it nor the name of the file. -/
theorem frame_consume {t : Token} {s : State} (hphase : s.phase ≠ .trailer) :
    (consume t s).frame = s.frame := by
  have hfirst := frame_react t hphase
  cases hreact : react t s with
  | done s' =>
    rw [hreact] at hfirst
    rw [consume, hreact]
    exact hfirst
  | again s' =>
    rw [hreact] at hfirst
    -- a token is never read again in the trailing code
    have hagain : s'.phase ≠ .trailer := by
      rcases phase_of_again hreact with h | h | h <;> simp [h]
    rw [consume, hreact]
    exact (frame_react t hagain).trans hfirst

/-- In the trailing code reading stays there. -/
theorem phase_consume_of_trailer {t : Token} {s : State} (hphase : s.phase = .trailer) :
    (consume t s).phase = .trailer := by
  rw [consume, react, hphase]
  exact hphase

/-- A token is read again in a phase in which it is used up. -/
theorem done_of_again {t : Token} {s s' : State} (h : react t s = .again s') :
    ∃ s'', react t s' = .done s'' := by
  unfold react
  -- each of the phases that follow uses up every token
  rcases phase_of_again h with hphase | hphase | hphase
  · rw [hphase]
    dsimp only [reactKeyword]
    split
    · exact ⟨_, rfl⟩
    · exact ⟨_, rfl⟩
  · rw [hphase]
    exact ⟨_, rfl⟩
  · rw [hphase]
    exact ⟨_, rfl⟩

/-- A token that is read again is used up as it is from the second state. -/
theorem consume_of_again {t : Token} {s s' : State} (h : react t s = .again s') :
    consume t s = consume t s' := by
  obtain ⟨s'', hs''⟩ := done_of_again h
  simp only [consume, h, hs'', Reaction.state]

/-! ## Lists of tokens -/

theorem consumeAll_cons (t : Token) (ts : List Token) (s : State) :
    consumeAll (t :: ts) s = consumeAll ts (consume t s) := rfl

/-- Tokens are read one list after the other. -/
theorem consumeAll_append (ts us : List Token) (s : State) :
    consumeAll (ts ++ us) s = consumeAll us (consumeAll ts s) := List.foldl_append

theorem consumeAll_concat (ts : List Token) (t : Token) (s : State) :
    consumeAll (ts ++ [t]) s = consume t (consumeAll ts s) := consumeAll_append ts [t] s

/-- In the trailing code reading stays there, however many tokens follow. -/
theorem phase_consumeAll_of_trailer (ts : List Token) {s : State}
    (hphase : s.phase = .trailer) : (consumeAll ts s).phase = .trailer := by
  induction ts generalizing s with
  | nil => exact hphase
  | cons t ts ih => exact ih (phase_consume_of_trailer hphase)

/-- Reading that has not got to the trailing code has left it alone. -/
theorem frame_consumeAll {ts : List Token} {s : State}
    (hphase : (consumeAll ts s).phase ≠ .trailer) : (consumeAll ts s).frame = s.frame := by
  induction ts generalizing s with
  | nil => rfl
  | cons t ts ih =>
    -- the trailing code was not read before, or reading would still be there
    have hs : s.phase ≠ .trailer := by
      intro htrailer
      exact hphase (phase_consumeAll_of_trailer (t :: ts) htrailer)
    exact (ih hphase).trans (frame_consume hs)

end YaccGrammar.Reading
