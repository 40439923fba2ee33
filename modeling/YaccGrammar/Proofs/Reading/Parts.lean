import YaccGrammar.Proofs.Reading.Effect

/-!
# The parts of a file

A file is read part by part: the block at the top, the declarations, the rules, and what follows
them. No token leads back to an earlier part. Where the next declaration is awaited, keyword and
tag of the last one are gone.

## Main statements

- `part_consume`, `part_consumeAll`: reading never goes back to an earlier part.
- `tidy_consumeAll`: nothing is left over from an earlier declaration.
-/

namespace YaccGrammar

/-- The part of the file that is being read, counted from 0. -/
def Phase.part : Phase → Nat
  | preamble | importBlock => 0
  | declaration | keyword | tagOrBlock | declaredNames => 1
  | ruleHead | colon | ruleBody | precKeyword | precSymbol | afterPrec => 2
  | trailerMark | trailer => 3

namespace Reading

variable {s : State}

/-- No reaction leads back to an earlier part. -/
theorem part_react (t : Token) (s : State) : s.phase.part ≤ (react t s).state.phase.part := by
  -- the phases that can follow one are listed, and none of them is in an earlier part
  have hnext : ∀ q ∈ s.phase.next, s.phase.part ≤ q.part := by
    cases s.phase <;> decide
  exact hnext _ (phase_react_mem t s)

/-- Reading never goes back to an earlier part of the file. -/
theorem part_consume (t : Token) (s : State) : s.phase.part ≤ (consume t s).phase.part :=
  consume_induction (P := fun s' => s.phase.part ≤ s'.phase.part)
    (fun t s' hs' => hs'.trans (part_react t s')) t (Nat.le_refl _)

/-- No list of tokens leads back to an earlier part. -/
theorem part_consumeAll (ts : List Token) (s : State) :
    s.phase.part ≤ (consumeAll ts s).phase.part :=
  consumeAll_induction (P := fun s' => s.phase.part ≤ s'.phase.part)
    (fun t s' hs' => hs'.trans (part_react t s')) ts (Nat.le_refl _)

/-! ## Leftovers -/

/-- In front of the block at the top there is no imported code, in front of a declaration no
keyword, and in front of a tag no tag. -/
structure Tidy (s : State) : Prop where
  importCode : s.phase.part = 0 → s.grammar.importCode = none
  keyword : s.phase.part = 0 ∨ s.phase = .declaration → s.keyword = none
  tag : s.phase.part = 0 ∨ s.phase = .declaration ∨ s.phase = .tagOrBlock → s.tag = none

/-- At the start there is nothing that could be left over. -/
theorem tidy_initial (file : String) : Tidy (.initial file) where
  importCode := fun _ => rfl
  keyword := fun _ => rfl
  tag := fun _ => rfl

namespace Tidy

/-- In the rules and behind them nothing is asked. -/
theorem of_two_le_part (hpart : 2 ≤ s.phase.part) : Tidy s := by
  cases h : s.phase with
  | preamble | importBlock | declaration | keyword | tagOrBlock | declaredNames =>
    simp [h, Phase.part] at hpart
  | _ => exact ⟨by simp [h, Phase.part], by simp [h, Phase.part], by simp [h, Phase.part]⟩

/-- Where a keyword is awaited nothing is asked. -/
theorem of_keyword (hphase : s.phase = .keyword) : Tidy s :=
  ⟨by simp [hphase, Phase.part], by simp [hphase, Phase.part], by simp [hphase, Phase.part]⟩

/-- Among the names of a declaration nothing is asked. -/
theorem of_declaredNames (hphase : s.phase = .declaredNames) : Tidy s :=
  ⟨by simp [hphase, Phase.part], by simp [hphase, Phase.part], by simp [hphase, Phase.part]⟩

/-- A diagnostic leaves nothing else behind. -/
theorem report (hs : Tidy s) (line : Nat) (problem : Problem) : Tidy (s.report line problem) :=
  ⟨hs.importCode, hs.keyword, hs.tag⟩

end Tidy

/-- No reaction leaves a keyword, a tag or imported code where there must be none. -/
theorem tidy_react (hs : Tidy s) (t : Token) : Tidy (react t s).state := by
  -- in the rules and behind them there is nothing to show
  by_cases hpart : 2 ≤ s.phase.part
  · exact .of_two_le_part (Nat.le_trans hpart (part_react t s))
  unfold react
  cases hphase : s.phase with
  | preamble =>
    have hhead : s.phase.part = 0 := by rw [hphase]; rfl
    simp only [reactPreamble, Reaction.state]
    split
    · exact ⟨fun _ => hs.importCode hhead, fun _ => hs.keyword (Or.inl hhead),
        fun _ => hs.tag (Or.inl hhead)⟩
    · exact hs.report _ _
  | importBlock =>
    have hhead : s.phase.part = 0 := by rw [hphase]; rfl
    simp only [reactImportBlock]
    split
    · exact ⟨fun h => absurd h (Nat.succ_ne_zero 0), fun _ => hs.keyword (Or.inl hhead),
        fun _ => hs.tag (Or.inl hhead)⟩
    · exact .of_keyword rfl
  | declaration =>
    simp only [reactDeclaration, Reaction.state]
    split
    · exact .of_keyword rfl
    · exact hs.report _ _
  | keyword =>
    simp only [reactKeyword]
    split
    · exact .of_two_le_part (Nat.le_refl 2)
    · simp only [Reaction.state]
      split
      · exact .of_declaredNames rfl
      · exact ⟨fun h => absurd h (Nat.succ_ne_zero 0), by simp [Phase.part], fun _ => rfl⟩
      · exact .of_declaredNames rfl
  | tagOrBlock =>
    simp only [reactTagOrBlock, readUnion]
    split
    · split
      · -- behind the block the keyword is dropped; there was no tag in front of it
        refine ⟨fun h => absurd h (Nat.succ_ne_zero 0), fun _ => rfl, fun _ => ?_⟩
        have htag := hs.tag (Or.inr (Or.inr hphase))
        cases s.grammar.unionCode with
        | none => exact htag
        | some first => exact htag
      · exact .of_declaredNames rfl
    · split
      · exact .of_declaredNames rfl
      · exact .of_declaredNames rfl
  | declaredNames =>
    simp only [reactDeclaredNames, Reaction.state]
    split
    · exact .of_keyword rfl
    · split
      · exact .of_declaredNames hphase
      · split
        · exact .of_declaredNames hphase
        · -- a name that is declared does not end the declaration
          exact .of_declaredNames ((phase_eq_of_setting (setting_declare _ t s)).trans hphase)
  | _ => simp [hphase, Phase.part] at hpart

/-- Nothing is left over from an earlier declaration, whatever the tokens were. -/
theorem tidy_consumeAll (hs : Tidy s) (ts : List Token) : Tidy (consumeAll ts s) :=
  consumeAll_induction (P := Tidy) (fun t _ hs => tidy_react hs t) ts hs

end Reading

end YaccGrammar
