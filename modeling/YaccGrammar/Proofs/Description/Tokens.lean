import YaccGrammar.Proofs.Description.Basic
import YaccGrammar.Proofs.Text.TokenShape

/-!
# The tokens of a description

In a valid description every part is written as tokens, each of which the tokenizer takes as one
piece. For the symbols behind `%prec` this holds because they have been mentioned before.

## Main statement

- `isToken_of_mem_tokens`
-/

namespace YaccGrammar

open Letter Text

/-! ## Shapes of tokens -/

/-- Every keyword is one token. -/
theorem isToken_keyword (k : Keyword) : isToken k.name = true := by
  cases k <;> decide

/-- The marks that close alternatives are tokens. -/
theorem isToken_closingMark (followed : Bool) : isToken (closingMark followed) = true := by
  cases followed <;> decide

/-- A tag is one token, since no angle bracket ends it early. -/
theorem isToken_tag {tag : String} (h : tag.toList.contains '>' = false) :
    isToken ("<" ++ tag ++ ">") = true := by
  have htext : ("<" ++ tag ++ ">").toList = '<' :: (tag.toList ++ ['>']) := by
    rw [String.toList_append, String.toList_append]
    rfl
  have htag : '>' ∉ tag.toList := by simpa using h
  rw [isToken_iff_isTokenShaped, htext]
  exact .tag htag

/-- The name of a nonterminal is one word. -/
theorem isToken_of_isNonterminal {n : String} (h : Name.isNonterminal n = true) :
    isToken n = true := by
  simp only [Name.isNonterminal, Bool.and_eq_true] at h
  obtain ⟨hfirst, hall⟩ := h
  have hne : n.toList ≠ [] := by
    intro hnil
    rw [hnil] at hfirst
    contradiction
  exact isToken_iff_isTokenShaped.mpr (.word hne hall)

/-- A code block is one token. -/
theorem isToken_of_isCode {text : String} (h : isCode text = true) : isToken text = true :=
  (Bool.and_eq_true_iff.mp h).1

/-- A name that may be declared is one token. -/
theorem isToken_of_isDeclarable {n : String} (h : isDeclarable n = true) : isToken n = true := by
  simp only [isDeclarable, Bool.and_eq_true] at h
  exact h.1.1

/-! ## Declarations -/

/-- A valid declaration is written in tokens. -/
theorem Declaration.isToken_of_mem_tokens {d : Declaration} (hvalid : d.isValid = true) :
    ∀ x ∈ d.tokens, isToken x = true := by
  cases d with
  | names k tag ns =>
    simp only [isValid, Bool.and_eq_true, List.all_eq_true] at hvalid
    obtain ⟨⟨-, htag⟩, hnames⟩ := hvalid
    have htags : ∀ x ∈ tag.toList.map fun tag => "<" ++ tag ++ ">", isToken x = true := by
      cases tag with
      | none => exact fun _ hx => nomatch hx
      | some tag =>
        intro x hx
        rw [List.mem_singleton.mp hx]
        exact isToken_tag (by simpa using htag)
    simp only [tokens, List.cons_append, List.forall_mem_cons, List.forall_mem_append]
    exact ⟨by decide, isToken_keyword k, htags,
      fun n hn => isToken_of_isDeclarable (hnames n hn).1⟩
  | union code =>
    simp only [tokens, List.forall_mem_cons]
    exact ⟨by decide, by decide, isToken_of_isCode hvalid, fun _ hx => nomatch hx⟩

/-- The names of a valid declaration are tokens. -/
theorem Declaration.isToken_of_mem_entries {d : Declaration} (hvalid : d.isValid = true) :
    ∀ e ∈ d.entries, isToken e.name = true := by
  cases d with
  | names k tag ns =>
    simp only [isValid, Bool.and_eq_true, List.all_eq_true] at hvalid
    intro e he
    obtain ⟨n, hn, rfl⟩ := List.mem_map.mp he
    exact isToken_of_isDeclarable (hvalid.2 n hn).1
  | union code => exact fun _ he => nomatch he

/-! ## Rules -/

/-- The symbols of a valid alternative are tokens. -/
theorem Branch.isToken_of_mem_symbols {b : Branch} (hvalid : b.isValid = true) :
    ∀ x ∈ b.symbols, isToken x = true := by
  simp only [isValid, Bool.and_eq_true, List.all_eq_true] at hvalid
  exact fun x hx => (hvalid.1 x hx).1

/-- A valid alternative is written in tokens, if the symbol behind `%prec` is one. -/
theorem Branch.isToken_of_mem_tokens {b : Branch} (hvalid : b.isValid = true)
    (hprec : b.prec.all isToken = true) : ∀ x ∈ b.tokens, isToken x = true := by
  have hprecs : ∀ x ∈ b.prec.toList.flatMap fun p => ["%", "prec", p], isToken x = true := by
    cases hp : b.prec with
    | none => exact fun _ hx => nomatch hx
    | some p =>
      rw [hp] at hprec
      simp only [Option.toList_some, List.flatMap_singleton, List.forall_mem_cons]
      exact ⟨by decide, by decide, hprec, fun _ hx => nomatch hx⟩
  have hcodes : ∀ x ∈ b.code.toList, isToken x = true := by
    simp only [isValid, Bool.and_eq_true] at hvalid
    intro x hx
    rw [Option.mem_toList] at hx
    rw [hx] at hvalid
    exact isToken_of_isCode hvalid.2
  simp only [tokens, List.forall_mem_append]
  exact ⟨⟨Branch.isToken_of_mem_symbols hvalid, hprecs⟩, hcodes⟩

/-- What is known stays tokens, so the symbols behind `%prec` are tokens. -/
theorem isToken_prec_of_branchesKnow {known : List String} {bs : List Branch}
    (hknown : branchesKnow known bs = true) (htokens : ∀ x ∈ known, isToken x = true)
    (hvalid : ∀ b ∈ bs, b.isValid = true) : ∀ b ∈ bs, b.prec.all isToken = true := by
  induction bs generalizing known with
  | nil => exact fun _ hb => nomatch hb
  | cons b bs ih =>
    rw [branchesKnow, Bool.and_eq_true] at hknown
    rw [List.forall_mem_cons] at hvalid
    -- what is known grows by the symbols of the alternative
    have htokens' : ∀ x ∈ known ++ b.symbols, isToken x = true :=
      List.forall_mem_append.mpr ⟨htokens, Branch.isToken_of_mem_symbols hvalid.1⟩
    -- a symbol behind `%prec` was known, or is one of the alternative itself
    have hprec : b.prec.all isToken = true := by
      cases hp : b.prec with
      | none => rfl
      | some p =>
        rw [hp] at hknown
        exact htokens' p (List.contains_iff_mem.mp hknown.1)
    exact List.forall_mem_cons.mpr ⟨hprec, ih hknown.2 htokens' hvalid.2⟩

/-- The names that a valid rule mentions are tokens. -/
theorem RuleGroup.isToken_of_mem_mentions {r : RuleGroup} (hvalid : r.isValid = true) :
    ∀ x ∈ r.mentions, isToken x = true := by
  simp only [isValid, Bool.and_eq_true, List.all_eq_true] at hvalid
  refine List.forall_mem_cons.mpr ⟨isToken_of_isNonterminal hvalid.1.1, fun x hx => ?_⟩
  obtain ⟨b, hb, hx⟩ := List.mem_flatMap.mp hx
  exact Branch.isToken_of_mem_symbols (hvalid.2 b hb) x hx

/-- A valid rule is written in tokens, if what was known before it are tokens. -/
theorem RuleGroup.isToken_of_mem_tokens {r : RuleGroup} {known : List String}
    (hvalid : r.isValid = true) (htokens : ∀ x ∈ known, isToken x = true)
    (hknown : branchesKnow (known ++ [r.lhs]) r.branches = true) :
    ∀ x ∈ r.tokens, isToken x = true := by
  simp only [isValid, Bool.and_eq_true, List.all_eq_true] at hvalid
  obtain ⟨⟨hlhs, -⟩, hbranches⟩ := hvalid
  have hlhs' := isToken_of_isNonterminal hlhs
  -- inside the rule its left-hand side is known too
  have hprec := isToken_prec_of_branchesKnow hknown
    (List.forall_mem_append.mpr ⟨htokens, List.forall_mem_singleton.mpr hlhs'⟩) hbranches
  refine List.forall_mem_cons.mpr ⟨hlhs', List.forall_mem_cons.mpr ⟨by decide, fun x hx => ?_⟩⟩
  obtain ⟨⟨b, followed⟩, hb, hx⟩ := List.mem_flatMap.mp hx
  have hb' := fst_mem_of_mem_marked hb
  rcases List.mem_append.mp hx with hx | hx
  · exact Branch.isToken_of_mem_tokens (hbranches b hb') (hprec b hb') x hx
  · rw [List.mem_singleton.mp hx]
    exact isToken_closingMark followed

/-- Valid rules are written in tokens, if what was known before them are tokens. -/
theorem isToken_of_rulesKnow {known : List String} {rs : List RuleGroup}
    (hknown : rulesKnow known rs = true) (htokens : ∀ x ∈ known, isToken x = true)
    (hvalid : ∀ r ∈ rs, r.isValid = true) :
    ∀ x ∈ rs.flatMap RuleGroup.tokens, isToken x = true := by
  induction rs generalizing known with
  | nil => exact fun _ hx => nomatch hx
  | cons r rs ih =>
    rw [rulesKnow, Bool.and_eq_true] at hknown
    rw [List.forall_mem_cons] at hvalid
    -- the next rule knows what this one mentions
    have htokens' : ∀ x ∈ known ++ r.mentions, isToken x = true :=
      List.forall_mem_append.mpr ⟨htokens, RuleGroup.isToken_of_mem_mentions hvalid.1⟩
    rw [List.flatMap_cons, List.forall_mem_append]
    exact ⟨RuleGroup.isToken_of_mem_tokens hvalid.1 htokens hknown.1,
      ih hknown.2 htokens' hvalid.2⟩

/-! ## The whole description -/

/-- A valid description is written in tokens. -/
theorem isToken_of_mem_tokens {D : Description} (hvalid : D.Valid) :
    ∀ x ∈ D.tokens, isToken x = true := by
  have hdeclarations : ∀ x ∈ D.declarations.flatMap Declaration.tokens, isToken x = true := by
    intro x hx
    obtain ⟨d, hd, hx⟩ := List.mem_flatMap.mp hx
    exact Declaration.isToken_of_mem_tokens (hvalid.declaration d hd) x hx
  have hentries : ∀ x ∈ D.entries.map Reading.DeclEntry.name, isToken x = true := by
    intro x hx
    obtain ⟨e, he, rfl⟩ := List.mem_map.mp hx
    obtain ⟨d, hd, he⟩ := List.mem_flatMap.mp he
    exact Declaration.isToken_of_mem_entries (hvalid.declaration d hd) e he
  have hrules := isToken_of_rulesKnow hvalid.prec hentries hvalid.rule
  -- the two marks behind the rules are there only with trailing code
  have hmarks : ∀ x ∈ (if D.trailing.isSome then ["%", "%"] else []), isToken x = true := by
    split
    · decide
    · exact fun _ hx => nomatch hx
  simp only [Description.tokens, Description.body, List.cons_append, List.forall_mem_cons,
    List.forall_mem_append]
  exact ⟨by decide, isToken_of_isCode hvalid.importCode, ⟨hdeclarations, by decide, by decide,
    hrules⟩, hmarks⟩

end YaccGrammar
