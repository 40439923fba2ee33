import YaccGrammar.Proofs.Reading.Closing
import YaccGrammar.Proofs.Reading.Parts

/-!
# Declarations

The names that a list of tokens declares, read off the tokens alone: a `%` begins a line, a line
consists of a keyword, perhaps a tag, and names, and an empty line ends the declarations. However
many tokens are out of place and wherever reading goes on after them, these are the names that it
meets among its declarations.

## Main statements

- `declarationLines_of_not_mark`: a line ends in front of the next `%`.
- `coming_of_done`, `coming_of_again`: a token declares what the tokens say, and leaves what is
  declared by the tokens behind it.
-/

namespace YaccGrammar

namespace Reading

/-! ## What is declared -/

/-- A name in a declaration, as a token, with the keyword and the tag of its line. -/
structure Declared where
  keyword : Keyword
  tag : Option String
  token : Token
  deriving DecidableEq

/-- What is written down about a declared name. -/
def Declared.entry (d : Declared) : DeclEntry := ⟨d.keyword, d.tag, d.token.text⟩

/-- The tokens behind the first `%`. -/
def behindMark (ts : List Token) : List Token := (ts.dropWhile fun t => !t.is '%').tail

/-- The tokens in front of the first `%`. -/
def inFrontOfMark (ts : List Token) : List Token := ts.takeWhile fun t => !t.is '%'

/-- The lines of the declarations. An empty line is the second `%` of `%%`. -/
def declarationLines (ts : List Token) : List (List Token) :=
  (ts.splitOnP fun t => t.is '%').takeWhile fun line => !line.isEmpty

/-- The tag that a line begins with behind its keyword. -/
def lineTag (args : List Token) : Option String :=
  (args.head?.filter fun t => t.first = '<').map fun t => t.trimmed 1 1

/-- The names that are declared with a keyword and a tag. Tags are no names. -/
def namesUnder (keyword : Keyword) (tag : Option String) (args : List Token) : List Declared :=
  (args.filter fun t => t.first ≠ '<').map fun t => ⟨keyword, tag, t⟩

/-- The names that a line declares. -/
def declaredIn : List Token → List Declared
  | [] => []
  | word :: args =>
    match Keyword.ofWord? word.text with
    | none | some .prec | some .union => []
    | some keyword => namesUnder keyword (lineTag args) args

/-- The names that are declared from the first line on. -/
def declaredFrom (ts : List Token) : List Declared := (declarationLines ts).flatMap declaredIn

/-- What follows the block of imported code. Without that block a declaration stands in its place.
-/
def behindImports (ts : List Token) : List Token :=
  if ts.head?.any Token.isImportBlock then behindMark ts else ts

/-- The names that a file declares. -/
def declared (ts : List Token) : List Declared := declaredFrom (behindImports (behindMark ts))

/-! ## Lines -/

section Lines

variable {t : Token} {ts : List Token}

/-- Behind a mark stand the tokens that follow it. -/
theorem behindMark_of_mark (h : t.is '%' = true) : behindMark (t :: ts) = ts := by
  simp [behindMark, h]

/-- Any other token is passed on the way to the mark. -/
theorem behindMark_of_not_mark (h : t.is '%' = false) : behindMark (t :: ts) = behindMark ts := by
  simp [behindMark, h]

theorem inFrontOfMark_of_mark (h : t.is '%' = true) : inFrontOfMark (t :: ts) = [] := by
  simp [inFrontOfMark, h]

theorem inFrontOfMark_of_not_mark (h : t.is '%' = false) :
    inFrontOfMark (t :: ts) = t :: inFrontOfMark ts := by
  simp [inFrontOfMark, h]

/-- A mark where a line would begin is an empty line, which ends the declarations. -/
theorem declarationLines_of_mark (h : t.is '%' = true) : declarationLines (t :: ts) = [] := by
  simp [declarationLines, List.splitOnP_cons_eq_if_modifyHead, h]

/-- A line ends in front of the next `%`, and the other lines stand behind it. -/
theorem declarationLines_of_not_mark (h : t.is '%' = false) : declarationLines (t :: ts) =
    (t :: inFrontOfMark ts) :: declarationLines (behindMark ts) := by
  induction ts generalizing t with
  | nil =>
    simp [declarationLines, List.splitOnP_cons_eq_if_modifyHead, h, inFrontOfMark, behindMark]
  | cons u us ih =>
    cases hu : u.is '%' with
    -- the line ends here
    | true =>
      rw [inFrontOfMark_of_mark hu, behindMark_of_mark hu]
      simp [declarationLines, List.splitOnP_cons_eq_if_modifyHead, h, hu]
    | false =>
      -- the token belongs to the line, whose rest is that of the tokens behind it
      have hrest := ih hu
      rw [inFrontOfMark_of_not_mark hu, behindMark_of_not_mark hu]
      obtain ⟨line, lines, hsplit⟩ :=
        List.exists_cons_of_ne_nil (List.splitOnP_ne_nil (fun t : Token => t.is '%') us)
      simp only [declarationLines, List.splitOnP_cons_eq_if_modifyHead, hu, h, Bool.false_eq_true,
        if_false, hsplit, List.modifyHead_cons, List.takeWhile_cons, List.isEmpty_cons,
        Bool.not_false, if_true, List.cons.injEq, true_and] at hrest ⊢
      exact hrest

theorem declaredFrom_of_mark (h : t.is '%' = true) : declaredFrom (t :: ts) = [] := by
  rw [declaredFrom, declarationLines_of_mark h]
  rfl

/-- What is declared is declared by the first line and by those behind the next mark. -/
theorem declaredFrom_of_not_mark (h : t.is '%' = false) : declaredFrom (t :: ts) =
    declaredIn (t :: inFrontOfMark ts) ++ declaredFrom (behindMark ts) := by
  rw [declaredFrom, declarationLines_of_not_mark h, List.flatMap_cons, declaredFrom]

end Lines

/-! ## What is declared from a state on -/

/-- The names that the next tokens declare when reading is in this state. -/
def State.coming (s : State) (ts : List Token) : List Declared :=
  match s.phase with
  | .preamble => declared ts
  | .importBlock => declaredFrom (behindImports ts)
  | .declaration => declaredFrom (behindMark ts)
  | .keyword => declaredFrom ts
  | .tagOrBlock =>
    match s.keyword with
    | none | some .union => declaredFrom (behindMark ts)
    | some keyword =>
      namesUnder keyword (lineTag (inFrontOfMark ts) <|> s.tag) (inFrontOfMark ts) ++
        declaredFrom (behindMark ts)
  | .declaredNames =>
    match s.keyword with
    | none => declaredFrom (behindMark ts)
    | some keyword =>
      namesUnder keyword s.tag (inFrontOfMark ts) ++ declaredFrom (behindMark ts)
  | _ => []

/-- The name that a token declares when reading is in this state. -/
def State.declares (s : State) (t : Token) : List Declared :=
  match s.phase, s.keyword with
  | .declaredNames, some keyword =>
    if t.is '%' || t.first = '<' then [] else [⟨keyword, s.tag, t⟩]
  | _, _ => []

variable {h h' h'' : History} {s s' s'' : State} {t : Token} {ts : List Token}

/-- A token that is no tag is a name. -/
theorem namesUnder_cons (keyword : Keyword) (tag : Option String) (t : Token) (ts : List Token) :
    namesUnder keyword tag (t :: ts) =
      if t.first = '<' then namesUnder keyword tag ts
      else ⟨keyword, tag, t⟩ :: namesUnder keyword tag ts := by
  by_cases hfirst : t.first = '<'
  · simp [namesUnder, hfirst]
  · simp [namesUnder, hfirst]

/-- A line has the tag that it begins with. -/
theorem lineTag_cons (t : Token) (ts : List Token) :
    lineTag (t :: ts) = if t.first = '<' then some (t.trimmed 1 1) else none := by
  by_cases hfirst : t.first = '<'
  · simp [lineTag, hfirst]
  · simp [lineTag, hfirst]

/-- A token that begins with something else is no mark. -/
theorem is_mark_eq_false_of_first {c : Char} (hc : c ≠ '%') (h : t.first = c) :
    t.is '%' = false := by
  rw [Bool.eq_false_iff]
  intro hmark
  exact hc (h.symm.trans (Token.first_eq_of_is hmark))

/-! ## Reactions -/

/-- Behind a keyword the rest of its line is awaited, and then the other lines. -/
theorem coming_of_reactKeyword (h : reactKeyword t s = .done s') (ts : List Token) :
    declaredFrom (t :: ts) = s'.coming ts := by
  unfold reactKeyword at h
  split at h
  · next hmark =>
    cases h
    exact declaredFrom_of_mark hmark
  next hmark =>
  rw [declaredFrom_of_not_mark (Bool.not_eq_true _ ▸ hmark)]
  -- an unknown word, and a keyword that takes no names, declare nothing
  cases hword : Keyword.ofWord? t.text with
  | none =>
    rw [hword] at h
    cases h
    simp [declaredIn, hword, State.coming, State.report]
  | some keyword =>
    rw [hword] at h
    cases keyword with
    | prec | union =>
      cases h
      simp [declaredIn, hword, State.coming, State.report]
    | _ =>
      cases h
      simp [declaredIn, hword, State.coming]

/-- A tag goes with all names of its line. -/
theorem coming_of_reactTagOrBlock (hphase : s.phase = .tagOrBlock)
    (h : reactTagOrBlock t s = .done s') (ts : List Token) :
    s.coming (t :: ts) = s'.coming ts := by
  unfold reactTagOrBlock at h
  split at h
  · next hunion =>
    unfold readUnion at h
    split at h
    · next hblock =>
      have hmark : t.is '%' = false := by
        simp only [Token.isBlock, Bool.and_eq_true, decide_eq_true_eq] at hblock
        exact is_mark_eq_false_of_first (by decide) hblock.1
      cases h
      simp [State.coming, hphase, hunion, behindMark_of_not_mark hmark]
    · cases h
  next hunion =>
  split at h
  · next hfirst =>
    have hmark : t.is '%' = false := is_mark_eq_false_of_first (by decide) hfirst
    cases h
    cases hkeyword : s.keyword with
    | none => simp [State.coming, hphase, hkeyword, behindMark_of_not_mark hmark]
    | some keyword =>
      -- any keyword but `%union` takes a tag
      have hother : keyword ≠ .union := fun h => hunion (h ▸ hkeyword)
      simp [State.coming, hphase, hkeyword, behindMark_of_not_mark hmark,
        inFrontOfMark_of_not_mark hmark, lineTag_cons, namesUnder_cons, hfirst]
  · cases h

/-- Among names a token declares itself, or nothing if it is a mark or a tag. -/
theorem coming_of_reactDeclaredNames (hphase : s.phase = .declaredNames)
    (h : reactDeclaredNames t s = .done s') (ts : List Token) :
    s.coming (t :: ts) = s.declares t ++ s'.coming ts := by
  unfold reactDeclaredNames at h
  cases h
  cases hmark : t.is '%' with
  -- a mark ends the line
  | true =>
    cases hkeyword : s.keyword with
    | none => simp [State.coming, State.declares, hphase, hkeyword, hmark, behindMark_of_mark]
    | some keyword =>
      simp [State.coming, State.declares, hphase, hkeyword, hmark, behindMark_of_mark,
        inFrontOfMark_of_mark, namesUnder]
  | false =>
    cases hkeyword : s.keyword with
    | none => simp [State.coming, State.declares, hphase, hkeyword, behindMark_of_not_mark hmark]
    | some keyword =>
      by_cases hfirst : t.first = '<'
      · simp [State.coming, State.declares, hphase, hkeyword, hmark, hfirst, State.report,
          behindMark_of_not_mark, inFrontOfMark_of_not_mark, namesUnder_cons]
      · -- declaring a name leaves phase, keyword and tag as they are
        have hsetting := setting_declare keyword t s
        have hphase' : (declare keyword t s).phase = .declaredNames :=
          (phase_eq_of_setting hsetting).trans hphase
        have hkeyword' : (declare keyword t s).keyword = some keyword :=
          (congrArg (fun s => s.keyword) hsetting).trans hkeyword
        have htag' : (declare keyword t s).tag = s.tag := congrArg (fun s => s.tag) hsetting
        simp [State.coming, State.declares, hphase, hkeyword, hmark, hfirst, hphase', hkeyword',
          htag', behindMark_of_not_mark, inFrontOfMark_of_not_mark, namesUnder_cons]

/-- Names are declared in one phase only. -/
theorem declares_eq_nil (hphase : s.phase ≠ .declaredNames) (t : Token) : s.declares t = [] := by
  unfold State.declares
  split
  · contradiction
  · rfl

/-- No declarations follow the first rule. -/
theorem coming_eq_nil (hpart : 2 ≤ s.phase.part) (ts : List Token) : s.coming ts = [] := by
  cases hphase : s.phase with
  | preamble | importBlock | declaration | keyword | tagOrBlock | declaredNames =>
    simp [hphase, Phase.part] at hpart
  | _ => simp only [State.coming, hphase]

/-- A token that is used up declares at most one name, and the tokens behind it the others. -/
theorem coming_of_done (h : react t s = .done s') (ts : List Token) :
    s.coming (t :: ts) = s.declares t ++ s'.coming ts := by
  by_cases hnames : s.phase = .declaredNames
  · rw [react, hnames] at h
    exact coming_of_reactDeclaredNames hnames h ts
  rw [declares_eq_nil hnames, List.nil_append]
  by_cases hpart : 2 ≤ s.phase.part
  · -- behind the declarations reading stays behind them
    have hlater : s.phase.part ≤ s'.phase.part := by
      have hreact := part_react t s
      rwa [h] at hreact
    rw [coming_eq_nil hpart, coming_eq_nil (hpart.trans hlater)]
  unfold react at h
  cases hphase : s.phase with
  | preamble =>
    rw [hphase] at h
    cases h
    cases hmark : t.is '%' with
    | true => simp [State.coming, hphase, State.goto, declared, behindMark_of_mark hmark]
    | false =>
      simp [State.coming, hphase, State.report, declared, behindMark_of_not_mark hmark]
  | importBlock =>
    simp only [hphase, reactImportBlock] at h
    split at h
    · next himport =>
      have hmark : t.is '%' = false := by
        simp only [Token.isImportBlock, Bool.and_eq_true, decide_eq_true_eq] at himport
        exact is_mark_eq_false_of_first (by decide) himport.1.1
      cases h
      simp [State.coming, hphase, State.goto, behindImports, himport, behindMark_of_not_mark hmark]
    · cases h
  | declaration =>
    rw [hphase] at h
    cases h
    cases hmark : t.is '%' with
    | true => simp [State.coming, hphase, State.goto, behindMark_of_mark hmark]
    | false => simp [State.coming, hphase, State.report, behindMark_of_not_mark hmark]
  | keyword =>
    rw [hphase] at h
    simpa [State.coming, hphase] using coming_of_reactKeyword h ts
  | tagOrBlock =>
    rw [hphase] at h
    exact coming_of_reactTagOrBlock hphase h ts
  | declaredNames => contradiction
  | _ => simp [hphase, Phase.part] at hpart

/-- A token that is read again has declared nothing so far. -/
theorem coming_of_again (h : react t s = .again s') (ts : List Token) :
    s.coming (t :: ts) = s'.coming (t :: ts) ∧ s.declares t = [] := by
  unfold react at h
  cases hphase : s.phase with
  | importBlock =>
    refine ⟨?_, declares_eq_nil (by simp [hphase]) t⟩
    simp only [hphase, reactImportBlock] at h
    split at h
    · cases h
    · next himport =>
      cases h
      simp [State.coming, hphase, State.goto, behindImports, himport]
  | tagOrBlock =>
    refine ⟨?_, declares_eq_nil (by simp [hphase]) t⟩
    -- a block that is missing, or a name where a tag might stand
    simp only [hphase, reactTagOrBlock, readUnion] at h
    split at h
    · next hunion =>
      split at h
      · cases h
      · cases h
        simp [State.coming, hphase, hunion]
    next hunion =>
    split at h
    · cases h
    · next hfirst =>
      cases h
      cases hkeyword : s.keyword with
      | none => simp [State.coming, hphase, hkeyword, State.goto]
      | some keyword =>
        have hother : keyword ≠ .union := fun h => hunion (h ▸ hkeyword)
        -- the line does not begin with a tag
        have htag : lineTag (inFrontOfMark (t :: ts)) = none := by
          cases hmark : t.is '%' with
          | true => rw [inFrontOfMark_of_mark hmark]; rfl
          | false => rw [inFrontOfMark_of_not_mark hmark, lineTag_cons, if_neg hfirst]
        simp [State.coming, hphase, hkeyword, State.goto, htag]
  | colon =>
    refine ⟨?_, declares_eq_nil (by simp [hphase]) t⟩
    simp only [hphase, reactColon] at h
    split at h
    · cases h
    · cases h
      simp [State.coming, hphase, State.goto]
  | keyword =>
    simp only [hphase, reactKeyword] at h
    split at h
    · cases h
    · cases h
  | _ =>
    rw [hphase] at h
    cases h

/-- No tokens declare nothing, in any state. -/
theorem coming_nil (s : State) : s.coming [] = [] := by
  have hfrom : declaredFrom [] = [] := by simp [declaredFrom, declarationLines]
  cases hphase : s.phase with
  | preamble => simp [State.coming, hphase, declared, behindImports, behindMark, hfrom]
  | importBlock => simp [State.coming, hphase, behindImports, hfrom]
  | declaration => simp [State.coming, hphase, behindMark, hfrom]
  | keyword => simp [State.coming, hphase, hfrom]
  | tagOrBlock =>
    simp only [State.coming, hphase, behindMark, List.dropWhile_nil, List.tail_nil, hfrom]
    split
    · rfl
    · rfl
    · simp [inFrontOfMark, namesUnder]
  | declaredNames =>
    simp only [State.coming, hphase, behindMark, List.dropWhile_nil, List.tail_nil, hfrom]
    split
    · rfl
    · simp [inFrontOfMark, namesUnder]
  | _ => simp only [State.coming, hphase]

end Reading

end YaccGrammar
