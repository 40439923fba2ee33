import YaccGrammar.Proofs.Description.Basic

/-!
# The grammar of tokens

Which lists of tokens spell which descriptions, told by the tokens alone and without reading them.
In the notation of grammars, with `B` a block, `C` a code block, `K` a keyword, `T` a tag, `N` a
name, `L` a left-hand side, `I` a symbol or a code block, and `S` any token:

* file: `%` `B` declaration* `%` `%` rule+ [`%` `%` any*],
* declaration: `%` `K` [`T`] `N`*, or `%` `union` `C`,
* rule: `L` `:` alternative (`|` alternative)* `;`,
* alternative: `I`* [`%` `prec` `S` `C`*].

What cannot be told piece by piece is a condition on the description: `Description.Consistent`.

## Main statements

- `Spelled.append`: lists are spelled one behind the other.
- `marked_concat`: a further alternative puts a bar behind the ones before it.
-/

namespace YaccGrammar

open Reading

/-! ## Lists -/

/-- The tokens consist of one piece for every member of a list, in order. -/
inductive Spelled {α : Type} (R : α → List Token → Prop) : List α → List Token → Prop
  | nil : Spelled R [] []
  | cons {a : α} {l : List α} {ts us : List Token} (ha : R a ts) (hl : Spelled R l us) :
      Spelled R (a :: l) (ts ++ us)

namespace Spelled

variable {α : Type} {R : α → List Token → Prop} {l m : List α} {ts us : List Token}

/-- Two lists are spelled one behind the other. -/
theorem append (hl : Spelled R l ts) (hm : Spelled R m us) : Spelled R (l ++ m) (ts ++ us) := by
  induction hl with
  | nil => exact hm
  | cons ha _ ih =>
    rw [List.cons_append, List.append_assoc]
    exact .cons ha ih

/-- A list of one member is spelled by its piece. -/
theorem singleton {a : α} (ha : R a ts) : Spelled R [a] ts := by
  rw [← List.append_nil ts]
  exact .cons ha .nil

/-- One more member is spelled behind the others. -/
theorem concat (hl : Spelled R l ts) {a : α} (ha : R a us) : Spelled R (l ++ [a]) (ts ++ us) :=
  hl.append (.singleton ha)

/-- Every member has a piece of its own. -/
theorem exists_of_mem (hl : Spelled R l ts) {a : α} (ha : a ∈ l) : ∃ us, R a us := by
  induction hl with
  | nil => cases ha
  | cons hb _ ih =>
    rcases List.mem_cons.mp ha with rfl | ha
    · exact ⟨_, hb⟩
    · exact ih ha

/-- The text of the tokens is that of the members. -/
theorem of_map_text {f : α → List String} (hl : ts.map Token.text = l.flatMap f)
    (hR : ∀ a ∈ l, ∀ us : List Token, us.map Token.text = f a → R a us) : Spelled R l ts := by
  induction l generalizing ts with
  | nil =>
    rw [List.map_eq_nil_iff.mp hl]
    exact .nil
  | cons a l ih =>
    -- the texts of the first member are those of the first tokens
    obtain ⟨us, vs, rfl, hus, hvs⟩ := List.map_eq_append_iff.mp hl
    exact .cons (hR a List.mem_cons_self us hus)
      (ih hvs fun b hb => hR b (List.mem_cons_of_mem _ hb))

end Spelled

/-! ## Declarations -/

/-- The token may stand among the names of a declaration. -/
structure Keyword.Names (k : Keyword) (t : Token) : Prop where
  mark : t.text ≠ "%"
  tag : t.first ≠ '<'
  accepts : accepts k t.text = true

/-- No names are names of any declaration. -/
theorem Keyword.names_nil (k : Keyword) : ∀ t ∈ ([] : List Token), k.Names t :=
  fun _ ht => nomatch ht

/-- The tokens of a declaration. -/
inductive Declaration.SpelledBy : Declaration → List Token → Prop
  | untagged {k : Keyword} {mark word : Token} {ts : List Token} (hmark : mark.text = "%")
      (hword : Keyword.ofWord? word.text = some k) (hprec : k ≠ .prec) (hunion : k ≠ .union)
      (hnames : ∀ t ∈ ts, k.Names t) :
      SpelledBy (.names k none (ts.map Token.text)) (mark :: word :: ts)
  | tagged {k : Keyword} {mark word tag : Token} {ts : List Token} (hmark : mark.text = "%")
      (hword : Keyword.ofWord? word.text = some k) (hprec : k ≠ .prec) (hunion : k ≠ .union)
      (htag : tag.first = '<') (hnames : ∀ t ∈ ts, k.Names t) :
      SpelledBy (.names k (some (tag.trimmed 1 1)) (ts.map Token.text))
        (mark :: word :: tag :: ts)
  | union {mark word block : Token} (hmark : mark.text = "%")
      (hword : Keyword.ofWord? word.text = some .union) (hblock : block.isBlock = true) :
      SpelledBy (.union (block.trimmed 1 1)) [mark, word, block]

/-! ## Rules -/

/-- The token may stand in an alternative in front of `%prec`. -/
def Token.IsItem (t : Token) : Prop := Name.isSymbol t.text = true ∨ t.first = '{'

/-- The symbols among the tokens of an alternative. -/
def symbolsOf (ts : List Token) : List String :=
  (ts.filter fun t => t.first ≠ '{').map Token.text

/-- The code blocks among the tokens of an alternative. -/
def codesOf (ts : List Token) : List String :=
  (ts.filter fun t => t.first = '{').map Token.text

/-- The tokens of an alternative, without the mark that closes it. It has at most one code block,
which may stand anywhere but between `%`, `prec` and the symbol. -/
inductive Branch.SpelledBy : Branch → List Token → Prop
  | plain {code : Option String} {ts : List Token} (hitems : ∀ t ∈ ts, t.IsItem)
      (hcode : codesOf ts = code.toList) :
      SpelledBy { symbols := symbolsOf ts, code } ts
  | prec {code : Option String} {mark word symbol : Token} {ts us : List Token}
      (hitems : ∀ t ∈ ts, t.IsItem) (hmark : mark.text = "%")
      (hword : Keyword.ofWord? word.text = some .prec) (hcodes : ∀ t ∈ us, t.first = '{')
      (hcode : codesOf (ts ++ us) = code.toList) :
      SpelledBy { symbols := symbolsOf ts, prec := some symbol.text, code }
        (ts ++ mark :: word :: symbol :: us)

/-- The tokens of an alternative and the mark that closes it. -/
inductive ClosedBy : Branch × Bool → List Token → Prop
  | intro {b : Branch} {followed : Bool} {ts : List Token} {mark : Token} (hb : b.SpelledBy ts)
      (hmark : mark.text = closingMark followed) : ClosedBy (b, followed) (ts ++ [mark])

/-- The tokens of a rule. -/
inductive RuleGroup.SpelledBy : RuleGroup → List Token → Prop
  | intro {bs : List Branch} {lhs colon : Token} {ts : List Token}
      (hlhs : Name.isNonterminal lhs.text = true) (hcolon : colon.text = ":") (hne : bs ≠ [])
      (hbranches : Spelled ClosedBy (marked bs) ts) :
      SpelledBy ⟨lhs.text, bs⟩ (lhs :: colon :: ts)

/-! ## Descriptions -/

/-- The tokens of the block at the top and of the declarations. -/
inductive HeadSpelledBy (code : String) (ds : List Declaration) : List Token → Prop
  | intro {mark block : Token} {ts : List Token} (hmark : mark.text = "%")
      (hblock : block.isImportBlock = true) (hcode : block.trimmed 1 2 = code)
      (hdeclarations : Spelled Declaration.SpelledBy ds ts) :
      HeadSpelledBy code ds (mark :: block :: ts)

namespace Description

/-- The tokens up to the end of the rules. -/
inductive BodySpelledBy (D : Description) : List Token → Prop
  | intro {mark mark' : Token} {ts us : List Token}
      (hhead : HeadSpelledBy D.importCode D.declarations ts) (hmark : mark.text = "%")
      (hmark' : mark'.text = "%") (hrules : Spelled RuleGroup.SpelledBy D.rules us) :
      BodySpelledBy D (ts ++ mark :: mark' :: us)

/-- All tokens of a description. Behind the second `%%` any tokens may stand. -/
inductive SpelledBy (D : Description) : List Token → Prop
  | body {ts : List Token} (hbody : D.BodySpelledBy ts) (htrailing : D.trailing = none) :
      SpelledBy D ts
  | trailing {mark mark' : Token} {ts us : List Token} (hbody : D.BodySpelledBy ts)
      (hmark : mark.text = "%") (hmark' : mark'.text = "%")
      (htrailing : D.trailing = some (String.join (us.map Token.text))) :
      SpelledBy D (ts ++ mark :: mark' :: us)

/-- The parts of a description fit together: there is one `%union` and one `%start` name at most,
there is a rule, the symbols behind `%prec` are known when they are read, and no left-hand side has
two empty alternatives. -/
structure Consistent (D : Description) : Prop where
  union : D.unions.length ≤ 1
  start : D.entries.countP (fun e => e.keyword = .start) ≤ 1
  rules : D.rules ≠ []
  prec : rulesKnow (D.entries.map DeclEntry.name) D.rules = true
  empty : ∀ r ∈ D.rules, D.closings.countP (isEmptyOf r.lhs) ≤ 1

/-- A valid description is consistent. -/
theorem Valid.consistent {D : Description} (h : D.Valid) : D.Consistent :=
  ⟨h.union, h.start, h.rules, h.prec, h.empty⟩

end Description

/-! ## Lists that grow at their ends -/

section

variable {t : Token} {ts us : List Token}

/-- The symbols among two lists of tokens. -/
theorem symbolsOf_append : symbolsOf (ts ++ us) = symbolsOf ts ++ symbolsOf us := by
  rw [symbolsOf, List.filter_append, List.map_append]
  rfl

/-- The code blocks among two lists of tokens. -/
theorem codesOf_append : codesOf (ts ++ us) = codesOf ts ++ codesOf us := by
  rw [codesOf, List.filter_append, List.map_append]
  rfl

/-- A symbol is one. -/
theorem symbolsOf_of_symbol (h : t.first ≠ '{') : symbolsOf [t] = [t.text] := by
  simp [symbolsOf, h]

/-- A symbol is no code block. -/
theorem codesOf_of_symbol (h : t.first ≠ '{') : codesOf [t] = [] := by
  simp [codesOf, h]

/-- A code block is no symbol. -/
theorem symbolsOf_of_code (h : t.first = '{') : symbolsOf [t] = [] := by
  simp [symbolsOf, h]

/-- A code block is one. -/
theorem codesOf_of_code (h : t.first = '{') : codesOf [t] = [t.text] := by
  simp [codesOf, h]

end

/-- A symbol is no code block. -/
theorem Token.first_ne_of_symbol {t : Token} (h : Name.isSymbol t.text = true) : t.first ≠ '{' :=
  Token.first_ne_of_isSymbol h (by decide) (by decide)

/-! ## Declarations that grow -/

/-- One more name of a declaration. -/
theorem Declaration.spelledBy_name {k : Keyword} {tag : Option String} {ns : List String}
    {t : Token} {ts : List Token} (hd : (names k tag ns).SpelledBy ts) (ht : k.Names t) :
    (names k tag (ns ++ [t.text])).SpelledBy (ts ++ [t]) := by
  have hconcat {us : List Token} (hnames : ∀ u ∈ us, k.Names u) : ∀ u ∈ us ++ [t], k.Names u :=
    List.forall_mem_append.mpr ⟨hnames, List.forall_mem_singleton.mpr ht⟩
  -- the new name is the text of the last token
  have htexts (us : List Token) : us.map Token.text ++ [t.text] = (us ++ [t]).map Token.text := by
    rw [List.map_append, List.map_singleton]
  cases hd with
  | untagged hmark hword hprec hunion hnames =>
    rw [htexts]
    exact .untagged hmark hword hprec hunion (hconcat hnames)
  | tagged hmark hword hprec hunion htag hnames =>
    rw [htexts]
    exact .tagged hmark hword hprec hunion htag (hconcat hnames)

/-! ## Alternatives that grow -/

namespace Branch

variable {b : Branch} {t : Token} {ts : List Token}

/-- No tokens spell the blank alternative. -/
theorem spelledBy_nil : SpelledBy { symbols := [] } [] := by
  have hitems : ∀ t ∈ ([] : List Token), t.IsItem := fun _ ht => nomatch ht
  exact .plain hitems rfl

/-- One more symbol of an alternative, in front of any `%prec`. -/
theorem spelledBy_symbol (hb : b.SpelledBy ts) (hprec : b.prec = none)
    (ht : Name.isSymbol t.text = true) :
    SpelledBy { b with symbols := b.symbols ++ [t.text] } (ts ++ [t]) := by
  have hfirst := Token.first_ne_of_symbol ht
  cases hb with
  | prec => cases hprec
  | plain hitems hcode =>
    have hitems' : ∀ u ∈ ts ++ [t], u.IsItem :=
      List.forall_mem_append.mpr ⟨hitems, List.forall_mem_singleton.mpr (Or.inl ht)⟩
    dsimp only
    rw [← symbolsOf_of_symbol hfirst, ← symbolsOf_append]
    refine .plain hitems' ?_
    rw [codesOf_append, codesOf_of_symbol hfirst, List.append_nil, hcode]

/-- The first code block of an alternative, in front of `%prec` or behind its symbol. -/
theorem spelledBy_code (hb : b.SpelledBy ts) (hcode : b.code = none) (ht : t.first = '{') :
    SpelledBy { b with code := some t.text } (ts ++ [t]) := by
  cases hb with
  | plain hitems hcode' =>
    dsimp only at hcode ⊢
    subst hcode
    have hitems' : ∀ u ∈ ts ++ [t], u.IsItem :=
      List.forall_mem_append.mpr ⟨hitems, List.forall_mem_singleton.mpr (Or.inr ht)⟩
    rw [← List.append_nil (symbolsOf ts), ← symbolsOf_of_code ht, ← symbolsOf_append]
    refine .plain hitems' ?_
    rw [codesOf_append, hcode', codesOf_of_code ht]
    rfl
  | @prec code mark word symbol ts us hitems hmark hword hcodes hcode' =>
    dsimp only at hcode ⊢
    subst hcode
    have hcodes' : ∀ u ∈ us ++ [t], u.first = '{' :=
      List.forall_mem_append.mpr ⟨hcodes, List.forall_mem_singleton.mpr ht⟩
    -- there was no block before, in front of `%prec` or behind it
    have hone : codesOf (ts ++ (us ++ [t])) = [t.text] := by
      rw [← List.append_assoc, codesOf_append, hcode', codesOf_of_code ht]
      rfl
    rw [List.append_assoc]
    exact .prec hitems hmark hword hcodes' hone

/-- A `%prec` behind the symbols of an alternative. -/
theorem spelledBy_prec (hb : b.SpelledBy ts) (hprec : b.prec = none) {mark word : Token}
    (hmark : mark.text = "%") (hword : Keyword.ofWord? word.text = some .prec) (symbol : Token) :
    SpelledBy { b with prec := some symbol.text } (ts ++ [mark, word] ++ [symbol]) := by
  cases hb with
  | prec => cases hprec
  | plain hitems hcode =>
    rw [List.append_assoc]
    exact .prec hitems hmark hword (fun _ hu => nomatch hu) (by rw [List.append_nil, hcode])

end Branch

/-! ## Rules that grow -/

/-- The description with one more rule. -/
def Description.addRule (D : Description) (r : RuleGroup) : Description :=
  { D with rules := D.rules ++ [r] }

/-- A further alternative puts a bar behind the ones before it. -/
theorem marked_concat {α : Type} (l : List α) (a : α) :
    marked (l ++ [a]) = l.map (fun b => (b, true)) ++ [(a, false)] := by
  induction l with
  | nil => rfl
  | cons b l ih =>
    -- the last mark is that of the new member, so one that was last before gets a bar
    cases l with
    | nil => rfl
    | cons c l =>
      rw [List.cons_append, List.cons_append, marked, ← List.cons_append, ih]
      rfl

/-- What alternatives know behind others. -/
theorem branchesKnow_append (known : List String) (bs bs' : List Branch) :
    branchesKnow known (bs ++ bs') =
      (branchesKnow known bs && branchesKnow (known ++ bs.flatMap Branch.symbols) bs') := by
  induction bs generalizing known with
  | nil => simp [branchesKnow]
  | cons b bs ih =>
    rw [List.cons_append, branchesKnow, branchesKnow, ih, Bool.and_assoc, List.flatMap_cons,
      List.append_assoc]

/-- What rules know behind others. -/
theorem rulesKnow_append (known : List String) (rs rs' : List RuleGroup) :
    rulesKnow known (rs ++ rs') =
      (rulesKnow known rs && rulesKnow (known ++ rs.flatMap RuleGroup.mentions) rs') := by
  induction rs generalizing known with
  | nil => simp [rulesKnow]
  | cons r rs ih =>
    rw [List.cons_append, rulesKnow, rulesKnow, ih, Bool.and_assoc, List.flatMap_cons,
      List.append_assoc]

end YaccGrammar
