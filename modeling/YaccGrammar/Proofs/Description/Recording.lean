import YaccGrammar.Proofs.Syntax.Acceptance

/-!
# Reading a description

The tokens in which a valid description is written spell it. So they are read without a diagnostic,
and they leave the record of the description.

## Main statements

- `bodySpelledBy_of_tokens`: the tokens of a description spell it, part by part.
- `stands_of_body`: what reading them leaves behind.
-/

namespace YaccGrammar

open Reading Text

variable {ts : List Token}

/-! ## Declarations -/

/-- A name that may be declared, and that the keyword accepts, is read as a name. -/
theorem Keyword.names_of_isDeclarable {k : Keyword} {t : Token} (h : isDeclarable t.text = true)
    (haccepts : accepts k t.text = true) : k.Names t := by
  simp only [isDeclarable, Bool.and_eq_true, decide_eq_true_eq] at h
  refine ⟨h.1.2, fun hfirst => h.2 ?_, haccepts⟩
  -- only the first character matters, if there is one
  cases htext : t.text.toList with
  | nil =>
    rw [Token.first, htext] at hfirst
    exact absurd hfirst (by decide)
  | cons c s =>
    rw [Token.first_of_text htext] at hfirst
    rw [hfirst]
    rfl

/-- The tokens of a valid declaration spell it. -/
theorem Declaration.spelledBy_of_tokens {d : Declaration} (hvalid : d.isValid = true)
    (hts : ts.map Token.text = d.tokens) : d.SpelledBy ts := by
  cases d with
  | names k tag ns =>
    simp only [isValid, Bool.and_eq_true, decide_eq_true_eq, List.all_eq_true] at hvalid
    obtain ⟨⟨⟨hprec, hunion⟩, -⟩, hnames⟩ := hvalid
    obtain ⟨mark, us, rfl, hmark, hus⟩ := List.map_eq_cons_iff.mp hts
    obtain ⟨word, vs, rfl, hword, hvs⟩ := List.map_eq_cons_iff.mp hus
    have hkeyword : Keyword.ofWord? word.text = some k := by rw [hword, Keyword.ofWord?_name]
    cases tag with
    | none =>
      subst hvs
      refine .untagged hmark hkeyword hprec hunion fun t ht => ?_
      have hname := hnames t.text (List.mem_map_of_mem ht)
      exact Keyword.names_of_isDeclarable hname.1 hname.2
    | some tag =>
      obtain ⟨t, xs, rfl, ht, rfl⟩ := List.map_eq_cons_iff.mp hvs
      have htext : t.text.toList = ['<'] ++ tag.toList ++ ['>'] := by
        rw [ht, String.toList_append, String.toList_append]
        rfl
      -- without its angle brackets the tag is the one of the declaration
      have htag : t.trimmed 1 1 = tag := (Token.trimmed_eq htext).trans String.ofList_toList
      rw [← htag]
      refine .tagged hmark hkeyword hprec hunion (Token.first_of_text htext) fun t ht => ?_
      have hname := hnames t.text (List.mem_map_of_mem ht)
      exact Keyword.names_of_isDeclarable hname.1 hname.2
  | union code =>
    obtain ⟨mark, us, rfl, hmark, hus⟩ := List.map_eq_cons_iff.mp hts
    obtain ⟨word, vs, rfl, hword, hvs⟩ := List.map_eq_cons_iff.mp hus
    obtain ⟨t, rfl, ht⟩ := List.map_eq_singleton_iff.mp hvs
    have htext : t.text.toList = ['{'] ++ code.toList ++ ['}'] := by
      rw [ht, String.toList_append, String.toList_append]
      rfl
    -- without its braces the block is the code of the declaration
    have hcode : t.trimmed 1 1 = code := (Token.trimmed_eq htext).trans String.ofList_toList
    rw [← hcode]
    exact .union hmark (by rw [hword]; exact Keyword.ofWord?_name .union)
      (Token.isBlock_of_text htext)

/-! ## Rules -/

/-- A code block begins with a brace. -/
theorem first_of_isCode {t : Token} (h : isCode t.text = true) : t.first = '{' := by
  simp only [isCode, Bool.and_eq_true, decide_eq_true_eq] at h
  rw [Token.first, h.2, Option.getD_some]

/-- A list of symbols contains no code. -/
theorem symbolsOf_of_symbols (h : ∀ t ∈ ts, Name.isSymbol t.text = true) :
    symbolsOf ts = ts.map Token.text ∧ codesOf ts = [] := by
  constructor
  · rw [symbolsOf, List.filter_eq_self.mpr]
    intro t ht
    exact decide_eq_true (Token.first_ne_of_symbol (h t ht))
  · rw [codesOf, List.map_eq_nil_iff, List.filter_eq_nil_iff]
    intro t ht
    simp [Token.first_ne_of_symbol (h t ht)]

/-- In a list of code blocks every token is code. -/
theorem codesOf_of_codes (h : ∀ t ∈ ts, t.first = '{') : codesOf ts = ts.map Token.text := by
  rw [codesOf, List.filter_eq_self.mpr]
  exact fun t ht => decide_eq_true (h t ht)

/-- The tokens of a valid alternative spell it, with a precedence or without one. -/
theorem Branch.spelledBy_of_tokens {b : Branch} (hvalid : b.isValid = true)
    (hts : ts.map Token.text = b.tokens) : b.SpelledBy ts := by
  obtain ⟨ns, prec, code⟩ := b
  simp only [isValid, Bool.and_eq_true, List.all_eq_true] at hvalid
  obtain ⟨us, vs, rfl, hus, hvs⟩ := List.map_eq_append_iff.mp hts
  obtain ⟨xs, ys, rfl, rfl, hys⟩ := List.map_eq_append_iff.mp hus
  have hsymbol : ∀ t ∈ xs, Name.isSymbol t.text = true :=
    fun t ht => (hvalid.1 t.text (List.mem_map_of_mem ht)).2
  have hcodes : ∀ t ∈ vs, t.first = '{' := by
    intro t ht
    have hmem : t.text ∈ code.toList := by
      rw [← hvs]
      exact List.mem_map_of_mem ht
    rw [Option.mem_toList] at hmem
    have hcode := hvalid.2
    rw [hmem] at hcode
    exact first_of_isCode hcode
  obtain ⟨hsymbols, hnone⟩ := symbolsOf_of_symbols hsymbol
  have hcode : codesOf (xs ++ vs) = code.toList := by
    rw [codesOf_append, hnone, List.nil_append, codesOf_of_codes hcodes, hvs]
  cases prec with
  | none =>
    -- without a precedence symbols and code are one list of items
    rw [List.map_eq_nil_iff.mp hys, List.append_nil]
    have hitems : ∀ t ∈ xs ++ vs, t.IsItem :=
      fun t ht => (List.mem_append.mp ht).imp (hsymbol t) (hcodes t)
    have hplain := Branch.SpelledBy.plain hitems hcode
    rw [symbolsOf_append, hsymbols, symbolsOf_of_codes hcodes, List.append_nil] at hplain
    exact hplain
  | some p =>
    obtain ⟨mark, us, rfl, hmark, hus⟩ := List.map_eq_cons_iff.mp hys
    obtain ⟨word, us, rfl, hword, hus⟩ := List.map_eq_cons_iff.mp hus
    obtain ⟨t, rfl, rfl⟩ := List.map_eq_singleton_iff.mp hus
    have hkeyword : Keyword.ofWord? word.text = some .prec := by
      rw [hword]
      exact Keyword.ofWord?_name .prec
    rw [List.append_assoc, ← hsymbols]
    exact .prec (fun t ht => Or.inl (hsymbol t ht)) hmark hkeyword hcodes hcode

/-- The tokens of a valid rule spell it. -/
theorem RuleGroup.spelledBy_of_tokens {r : RuleGroup} (hvalid : r.isValid = true)
    (hts : ts.map Token.text = r.tokens) : r.SpelledBy ts := by
  obtain ⟨lhs, bs⟩ := r
  simp only [isValid, Bool.and_eq_true, Bool.not_eq_true', List.all_eq_true] at hvalid
  obtain ⟨⟨hlhs, hne⟩, hbranches⟩ := hvalid
  obtain ⟨t, us, rfl, rfl, hus⟩ := List.map_eq_cons_iff.mp hts
  obtain ⟨colon, vs, rfl, hcolon, hvs⟩ := List.map_eq_cons_iff.mp hus
  refine .intro hlhs hcolon (List.isEmpty_eq_false_iff.mp hne) (.of_map_text hvs ?_)
  -- each alternative is followed by its own mark
  rintro ⟨b, followed⟩ hb us hus
  obtain ⟨xs, ys, rfl, hxs, hys⟩ := List.map_eq_append_iff.mp hus
  obtain ⟨mark, rfl, hmark⟩ := List.map_eq_singleton_iff.mp hys
  have hvalid := hbranches b (fst_mem_of_mem_marked hb)
  exact .intro (Branch.spelledBy_of_tokens hvalid hxs) hmark

/-- The tokens of valid rules spell them, one after the other. -/
theorem RuleGroup.spelled_of_tokens {rs : List RuleGroup} (hvalid : ∀ r ∈ rs, r.isValid = true)
    (hts : ts.map Token.text = rs.flatMap tokens) : Spelled SpelledBy rs ts :=
  .of_map_text hts fun r hr _ => spelledBy_of_tokens (hvalid r hr)

/-! ## The whole description -/

namespace Description

/-- The tokens of a valid description spell it, up to the end of the rules. -/
theorem bodySpelledBy_of_tokens {D : Description} (hvalid : D.Valid)
    (hts : ts.map Token.text = D.body) : D.BodySpelledBy ts := by
  obtain ⟨us, vs, rfl, hus, hvs⟩ := List.map_eq_append_iff.mp hts
  obtain ⟨mark, us, rfl, hmark, hus⟩ := List.map_eq_cons_iff.mp hus
  obtain ⟨block, us, rfl, hblock, hus⟩ := List.map_eq_cons_iff.mp hus
  obtain ⟨mark', vs, rfl, hmark', hvs⟩ := List.map_eq_cons_iff.mp hvs
  obtain ⟨mark'', vs, rfl, hmark'', hvs⟩ := List.map_eq_cons_iff.mp hvs
  have htext : block.text.toList = ['{'] ++ D.importCode.toList ++ ['%', '}'] := by
    rw [hblock, importToken, String.toList_append, String.toList_append]
    rfl
  have hcode : block.trimmed 1 2 = D.importCode :=
    (Token.trimmed_eq htext).trans String.ofList_toList
  have hdeclarations : Spelled Declaration.SpelledBy D.declarations us :=
    .of_map_text hus fun d hd _ => Declaration.spelledBy_of_tokens (hvalid.declaration d hd)
  have hrules := RuleGroup.spelled_of_tokens hvalid.rule hvs
  exact .intro (.intro hmark (Token.isImportBlock_of_text htext) hcode hdeclarations) hmark'
    hmark'' hrules

end Description

namespace Reading

/-- The last alternative of a valid description is kept. -/
theorem kept_ne_nil_of_valid {D : Description} (hvalid : D.Valid) :
    (Record.ofDescription D).kept ≠ [] := by
  refine kept_ne_nil hvalid.rules fun r hr => ?_
  have hrule := hvalid.rule r hr
  simp only [RuleGroup.isValid, Bool.and_eq_true, Bool.not_eq_true'] at hrule
  exact List.isEmpty_eq_false_iff.mp hrule.1.2

/-- The tokens up to the end of the rules record what the description says. -/
theorem stands_of_body {D : Description} (hvalid : D.Valid) (file : String)
    (hts : ts.map Token.text = D.body) :
    Stands (.ofDescription D) .ruleHead (consumeAll ts (.initial file)) := by
  have hsteps := steps_of_body hvalid.consistent (Description.bodySpelledBy_of_tokens hvalid hts)
  exact (stands_initial file).of_steps hsteps

/-- Behind the first mark that ends the rules the second one is due. -/
theorem stands_of_mark {D : Description} (hvalid : D.Valid) (file : String)
    (hts : ts.map Token.text = D.body ++ ["%"]) :
    Stands (.ofDescription D) .trailerMark (consumeAll ts (.initial file)) := by
  obtain ⟨us, vs, rfl, hus, hvs⟩ := List.map_eq_append_iff.mp hts
  obtain ⟨mark, rfl, hmark⟩ := List.map_eq_singleton_iff.mp hvs
  rw [consumeAll_append]
  exact (stands_of_body hvalid file hus).trailerMark (kept_ne_nil_of_valid hvalid) hmark

end Reading

end YaccGrammar
