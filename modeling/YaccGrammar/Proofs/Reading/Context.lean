import YaccGrammar.Proofs.Guarded.Reading
import YaccGrammar.Proofs.Reading.Semicolon
import YaccGrammar.Proofs.Reading.Sources

/-!
# What a phase goes with

Keyword, tag and open rule are written in many places, and the reactions that look at them rely on
what the phase says about them: where a declaration is awaited, nothing is left over from the one
before; behind a keyword there is a keyword; and where an alternative is filled up, there is a rule
to fill up, the last one of its chain. All this holds between any two reactions, whatever the tokens
are. The block at the top is awaited once, and only then its code is written.

## Main statements

- `Declaring.react`: keyword and tag agree with the phase.
- `Invariant.react`, `Invariant.coherent`: what every reaction keeps makes phase and state agree.
- `importBlock_once`: the block at the top is awaited once.
- `coherent_consumeAll`: the whole, for any tokens.
-/

namespace YaccGrammar

/-- The rule is the last one, and the chain of its left-hand side begins with it. -/
structure Grammar.IsHead (g : Grammar) (id : RuleId) : Prop where
  last : id + 1 = g.rules.length
  first : ∃ r x, g.rule? id = some r ∧ g.table.get? r.lhs = some x ∧ x.firstRule = some id

namespace Reading

variable {s : State}

/-- A phase that is reached is one of those that follow. -/
theorem next_of_phase {t : Token} {p : Phase} (h : (react t s).state.phase = p) :
    p ∈ s.phase.next :=
  h ▸ phase_react_mem t s

/-! ## Declarations -/

/-- Keyword and tag are those that the phase lets expect. -/
structure Declaring (s : State) : Prop extends Tidy s where
  atKeyword : s.phase = .keyword → s.keyword = none ∧ s.tag = none
  behindKeyword : s.phase = .tagOrBlock → ∃ k, s.keyword = some k ∧ k ≠ .prec
  amongNames : s.phase = .declaredNames → s.keyword ≠ some .union ∧ s.keyword ≠ some .prec

/-- In the beginning nothing is declared. -/
theorem declaring_initial (file : String) : Declaring (.initial file) :=
  ⟨tidy_initial file, nofun, nofun, nofun⟩

/-- A declared name does not change what is declared. -/
theorem declaration_declare (k : Keyword) (t : Token) (s : State) :
    (declare k t s).phase = s.phase ∧ (declare k t s).keyword = s.keyword := by
  have hsetting := setting_declare k t s
  exact ⟨phase_eq_of_setting hsetting, congrArg (fun s => s.keyword) hsetting⟩

/-- In front of a keyword nothing is left over. -/
theorem atKeyword_react (hs : Tidy s) (t : Token) (h : (react t s).state.phase = .keyword) :
    (react t s).state.keyword = none ∧ (react t s).state.tag = none := by
  have hnext := next_of_phase h
  -- the phase that the reaction comes from: only three lead to a keyword
  cases hphase : s.phase with
  | importBlock =>
    have hhead : s.phase.part = 0 := by rw [hphase]; rfl
    have hnone : s.keyword = none ∧ s.tag = none := ⟨hs.keyword (.inl hhead), hs.tag (.inl hhead)⟩
    simp only [react, hphase, reactImportBlock]
    split
    · exact hnone
    · exact hnone
  | declaration =>
    have hnone : s.keyword = none ∧ s.tag = none :=
      ⟨hs.keyword (.inr hphase), hs.tag (.inr (.inl hphase))⟩
    simp only [react, hphase, reactDeclaration, Reaction.state]
    split
    · exact hnone
    · exact hnone
  | declaredNames =>
    simp only [react, hphase, reactDeclaredNames, Reaction.state] at h ⊢
    split at h
    · next hmark =>
      rw [if_pos hmark]
      exact ⟨rfl, rfl⟩
    -- any other token stays among the names
    split at h
    · cases hphase.symm.trans h
    split at h
    · cases hphase.symm.trans h
    · cases hphase.symm.trans ((declaration_declare _ t s).1.symm.trans h)
  | _ => simp [hphase, Phase.next] at hnext

/-- Behind a keyword there is one, and it is not that of a precedence. -/
theorem behindKeyword_react (t : Token) (h : (react t s).state.phase = .tagOrBlock) :
    ∃ k, (react t s).state.keyword = some k ∧ k ≠ .prec := by
  have hnext := next_of_phase h
  cases hphase : s.phase with
  | keyword =>
    simp only [react, hphase, reactKeyword] at h ⊢
    split at h
    · cases h
    next hmark =>
    rw [if_neg hmark]
    simp only [Reaction.state] at h ⊢
    -- unknown words, and the keyword of a precedence, lead to names that are skipped
    split at h
    · cases h
    · next k hk _ => exact ⟨k, rfl, hk⟩
    · cases h
  | _ => simp [hphase, Phase.next] at hnext

/-- Names are declared with a keyword that takes names, or skipped. -/
theorem amongNames_react (hs : Declaring s) (t : Token)
    (h : (react t s).state.phase = .declaredNames) :
    (react t s).state.keyword ≠ some .union ∧ (react t s).state.keyword ≠ some .prec := by
  have hnone (k : Keyword) : (none : Option Keyword) ≠ some k := (Option.some_ne_none k).symm
  have hnext := next_of_phase h
  -- the phases that lead among names: a keyword, what follows it, and the names themselves
  cases hphase : s.phase with
  | keyword =>
    simp only [react, hphase, reactKeyword] at h ⊢
    split at h
    · cases h
    next hmark =>
    rw [if_neg hmark]
    simp only [Reaction.state] at h ⊢
    split at h
    · exact ⟨hnone _, hnone _⟩
    · cases h
    · exact ⟨hnone _, hnone _⟩
  | tagOrBlock =>
    obtain ⟨k, hk, hprec⟩ := hs.behindKeyword hphase
    simp only [react, hphase, reactTagOrBlock] at h ⊢
    split at h
    · next hunion =>
      -- a union without its block is given up
      rw [if_pos hunion]
      simp only [readUnion] at h ⊢
      split at h
      · cases h
      · next hblock =>
        rw [if_neg hblock]
        exact ⟨hnone _, hnone _⟩
    · next hunion =>
      have hkept : s.keyword ≠ some .union ∧ s.keyword ≠ some .prec :=
        ⟨hunion, by simpa [hk] using hprec⟩
      rw [if_neg hunion]
      split
      · exact hkept
      · exact hkept
  | declaredNames =>
    have hkept := hs.amongNames hphase
    simp only [react, hphase, reactDeclaredNames, Reaction.state] at h ⊢
    split at h
    · cases h
    next hmark =>
    rw [if_neg hmark]
    split
    · exact hkept
    split
    · exact hkept
    · rw [(declaration_declare _ t s).2]
      exact hkept
  | _ => simp [hphase, Phase.next] at hnext

/-- Every reaction keeps keyword and tag in agreement with the phase. -/
theorem Declaring.react (hs : Declaring s) (t : Token) : Declaring (react t s).state where
  toTidy := tidy_react hs.toTidy t
  atKeyword := atKeyword_react hs.toTidy t
  behindKeyword := behindKeyword_react t
  amongNames := amongNames_react hs t

/-! ## The open rule -/

/-- Behind a left-hand side its rule is open. -/
theorem openRule_isSome_of_colon (t : Token) (h : (react t s).state.phase = .colon) :
    (react t s).state.openRule.isSome = true := by
  have hnext := next_of_phase h
  -- only a left-hand side leads to the colon
  cases hphase : s.phase with
  | ruleHead =>
    simp only [react, hphase, reactRuleHead, Reaction.state] at h ⊢
    split at h
    · split at h
      · cases hphase.symm.trans h
      · cases h
    next hmark =>
    rw [if_neg hmark]
    split at h
    · next hname =>
      rw [if_pos hname]
      rfl
    · cases h
  | _ => simp [hphase, Phase.next] at hnext

/-- An open rule is the last one, so the chain of its left-hand side begins with it. -/
theorem isHead_of_openRule (hs : Guarded.Trusted s) {id : RuleId} (hopen : s.openRule = some id) :
    s.grammar.IsHead id := by
  obtain ⟨h, hagrees⟩ := hs.agrees
  have hcurrent := hagrees.openRule
  rw [hopen] at hcurrent
  obtain ⟨a, ha, -⟩ := Option.map_eq_some_iff.mp hcurrent.symm
  -- in front of it are the rules that are kept, and nothing is behind it
  obtain ⟨rules, r, hrules, hlast, -⟩ := hagrees.exists_openRule ha
  obtain rfl : id = rules.length := Option.some_inj.mp (hopen.symm.trans hlast)
  have hlength : s.grammar.rules.length = rules.length + 1 := by
    rw [hrules, List.length_append, List.length_singleton]
  have hr : s.grammar.rules[rules.length]? = some r := by rw [hrules, List.getElem?_concat_length]
  obtain ⟨x, hx⟩ := SymbolTable.exists_get?_of_lt (hs.chained.lhs r (List.mem_of_getElem? hr))
  refine ⟨hlength.symm, r, x, hr, hx, ?_⟩
  rw [hs.chained.first r.lhs x hx, hlength, lastBelow, hr, if_pos (Option.map_some ..)]

/-! ## The whole state -/

/-- The phase agrees with the open rule, with the keyword and with the tag. -/
structure Coherent (s : State) : Prop where
  closed : s.phase.inRule = false → s.openRule = none
  opened : s.phase = .colon ∨ s.phase.inPrec = true → s.openRule.isSome = true
  head : ∀ id, s.openRule = some id → s.grammar.IsHead id
  beforeKeyword : s.phase ∈ [.preamble, .importBlock, .declaration, .keyword] →
    s.keyword = none ∧ s.tag = none
  behindKeyword : s.phase = .tagOrBlock → (∃ k, s.keyword = some k ∧ k ≠ .prec) ∧ s.tag = none
  amongNames : s.phase = .declaredNames → s.keyword ≠ some .union ∧ s.keyword ≠ some .prec

/-- What a state needs for the phase to agree with the rest, and what every reaction keeps. -/
structure Invariant (s : State) : Prop extends Guarded.Trusted s, Declaring s where
  opened : s.phase = .colon ∨ s.phase.inPrec = true → s.openRule.isSome = true

/-- The initial state has all that is needed. -/
theorem invariant_initial (file : String) : Invariant (.initial file) where
  toTrusted := .initial file
  toDeclaring := declaring_initial file
  opened := by simp [State.initial, Phase.inPrec]

/-- Every reaction keeps what a state needs. -/
theorem Invariant.react (hs : Invariant s) (t : Token) : Invariant (react t s).state where
  toTrusted := hs.toTrusted.react t
  toDeclaring := hs.toDeclaring.react t
  opened := by
    rintro (hcolon | hprec)
    · exact openRule_isSome_of_colon t hcolon
    · exact openRule_isSome_react t (fun h => hs.opened (.inr h)) hprec

/-- Where a state has what it needs, its phase agrees with the rest of it. -/
theorem Invariant.coherent (hs : Invariant s) : Coherent s where
  closed := by
    intro hphase
    obtain ⟨h, hagrees⟩ := hs.agrees
    rw [hagrees.openRule, hagrees.current_eq_none hphase]
    rfl
  opened := hs.opened
  head := fun _ => isHead_of_openRule hs.toTrusted
  beforeKeyword := by
    intro hphase
    -- the four phases in front of a keyword
    have hpart : s.phase = .keyword ∨ s.phase = .declaration ∨ s.phase.part = 0 := by
      simp only [List.mem_cons, List.not_mem_nil, or_false] at hphase
      rcases hphase with h | h | h | h <;> simp [h, Phase.part]
    rcases hpart with h | h | h
    · exact hs.atKeyword h
    · exact ⟨hs.keyword (.inr h), hs.tag (.inr (.inl h))⟩
    · exact ⟨hs.keyword (.inl h), hs.tag (.inl h)⟩
  behindKeyword := fun h => ⟨hs.behindKeyword h, hs.tag (.inr (.inr h))⟩
  amongNames := hs.amongNames

/-! ## The block at the top -/

/-- The token behind the first `%` leads on to the declarations, whatever it is. -/
theorem part_consume_of_importBlock (t : Token) (hs : s.phase = .importBlock) :
    1 ≤ (consume t s).phase.part := by
  have hnext := phase_react_mem t s
  have hone : 1 ≤ (react t s).state.phase.part := by
    simp only [hs, Phase.next, List.mem_cons, List.not_mem_nil, or_false] at hnext
    rcases hnext with h | h <;> simp [h, Phase.part]
  -- read once or twice, the token leads on
  cases hreact : react t s with
  | done s' =>
    rw [hreact] at hone
    rw [consume, hreact]
    exact hone
  | again s' =>
    rw [hreact] at hone
    rw [consume_of_again hreact]
    exact hone.trans (part_consume t s')

/-- The block at the top is awaited once. -/
theorem importBlock_once {ts us us' : List Token} (hus : us <+: ts) (hus' : us' <+: ts)
    (h : (consumeAll us s).phase = .importBlock) (h' : (consumeAll us' s).phase = .importBlock) :
    us = us' := by
  -- one of the two lists of tokens is the beginning of the other
  wlog hle : us.length ≤ us'.length generalizing us us'
  · exact (this hus' hus h' h (Nat.le_of_not_le hle)).symm
  obtain ⟨vs, rfl⟩ := List.prefix_of_prefix_length_le hus hus' hle
  cases vs with
  | nil => exact (List.append_nil us).symm
  | cons t vs =>
    -- one token later the block is behind, and reading does not go back
    have hbehind : 1 ≤ (consumeAll (us ++ t :: vs) s).phase.part := by
      rw [consumeAll_append, consumeAll_cons]
      exact (part_consume_of_importBlock t h).trans (part_consumeAll vs _)
    rw [h'] at hbehind
    contradiction

/-- The imported code is written where the block at the top is awaited, and a declaration is awaited
behind it. -/
theorem phase_of_importCode_consume {t : Token}
    (h : (consume t s).grammar.importCode ≠ s.grammar.importCode) :
    s.phase = .importBlock ∧ (consume t s).phase = .declaration := by
  rcases (writes_consume t s).importCode_cases with hsame | ⟨hphase, hblock, -⟩
  · exact absurd hsame h
  · refine ⟨hphase, ?_⟩
    simp only [consume, react, hphase, reactImportBlock, if_pos hblock]
    rfl

/-- Between any two reactions the phase agrees with the rest of the state, whatever the tokens are.
The imported code is written on the way from the block at the top to the first declaration, and that
block is awaited once. -/
theorem coherent_consumeAll (file : String) (ts : List Token) :
    Coherent (consumeAll ts (.initial file)) ∧
      (∀ t, Coherent (react t (consumeAll ts (.initial file))).state) ∧
      (∀ t, (consumeAll (ts ++ [t]) (.initial file)).grammar.importCode ≠
          (consumeAll ts (.initial file)).grammar.importCode →
        (consumeAll ts (.initial file)).phase = .importBlock ∧
          (consumeAll (ts ++ [t]) (.initial file)).phase = .declaration) ∧
      ∀ us us', us <+: ts → us' <+: ts →
        (consumeAll us (.initial file)).phase = .importBlock →
        (consumeAll us' (.initial file)).phase = .importBlock → us = us' := by
  have hread : Invariant (consumeAll ts (.initial file)) :=
    consumeAll_induction (fun t _ hs => hs.react t) ts (invariant_initial file)
  refine ⟨hread.coherent, fun t => (hread.react t).coherent, fun t hcode => ?_,
    fun us us' => importBlock_once⟩
  rw [consumeAll_concat] at hcode ⊢
  exact phase_of_importCode_consume hcode

end Reading

end YaccGrammar
