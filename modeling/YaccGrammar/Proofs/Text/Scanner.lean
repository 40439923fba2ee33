import YaccGrammar.Proofs.Text.Layout
import YaccGrammar.Token.Scanner

/-!
# The tokenizer, character by character

Reading character by character does what the tokenizer does: each loop takes the part of the text
that the scan of its construct takes, and no character is handed back before the last one has been
read again.

## Main statements

- `Scanner.readCode_eq`, `Scanner.readToken_eq`: the loops take what the scans take.
- `Scanner.next_eq`: a token is read as the tokenizer reads it.
-/

namespace YaccGrammar

open Text

namespace Text

/-- Puts characters in front of the text that a scan took. -/
def Scan.prepend (s : List Char) : Scan → Scan
  | .ok (text, rest) => .ok (s ++ text, rest)
  | .error e => .error e

theorem Scan.prepend_nil (r : Scan) : Scan.prepend [] r = r := by
  obtain e | ⟨text, rest⟩ := r <;> rfl

theorem Scan.cons_prepend (c : Char) (s : List Char) (r : Scan) :
    Scan.cons c (Scan.prepend s r) = Scan.prepend (c :: s) r := by
  obtain e | ⟨text, rest⟩ := r <;> rfl

end Text

namespace Scanner

variable {m : Scanner} {keep : Bool}

theorem take_take (s u : List Char) (source source' : Reader) :
    (m.take keep s source).take keep u source' = m.take keep (s ++ u) source' := by
  cases keep with
  | false => simp [take, newlines_append, Nat.add_assoc]
  | true => simp [take, newlines_append, Nat.add_assoc, String.ofList_append, String.append_assoc]

/-- Where a loop stops that scans `s`. What is not closed reaches to the end of the text. -/
def stopAt (m : Scanner) (s : List Char) : Scan → Stop
  | .ok (text, rest) => (none, m.take true text ⟨none, rest⟩)
  | .error what => (some what, m.take true s ⟨none, []⟩)

theorem stopAt_take (s u : List Char) (source : Reader) (r : Scan) :
    (m.take true s source).stopAt u r = m.stopAt (s ++ u) (Scan.prepend s r) := by
  obtain e | ⟨text, rest⟩ := r
  · exact congrArg (Prod.mk (some e)) (take_take s u source _)
  · exact congrArg (Prod.mk none) (take_take s text source _)

theorem stopAt_take_cons (c : Char) (u : List Char) (source : Reader) (r : Scan) :
    (m.take true [c] source).stopAt u r = m.stopAt (c :: u) (Scan.cons c r) := by
  rw [stopAt_take]
  obtain e | ⟨text, rest⟩ := r <;> rfl

/-! ## Comments -/

theorem skipLine_nil (hunread : m.source.unread = []) :
    skipLine keep m = m.take keep [] ⟨none, []⟩ := by
  rw [skipLine]
  split
  · next h =>
    rw [Reader.next_of_nil hunread] at h
    cases h
    rfl
  · next h =>
    rw [Reader.next_of_nil hunread] at h
    cases h

theorem skipLine_cons {c : Char} {s : List Char} (hunread : m.source.unread = c :: s) :
    skipLine keep m = if c = '\n' then m.take keep [c] ⟨none, s⟩
      else skipLine keep (m.take keep [c] ⟨none, s⟩) := by
  rw [skipLine]
  split
  · next h =>
    rw [Reader.next_of_cons hunread] at h
    cases h
  · next h =>
    rw [Reader.next_of_cons hunread] at h
    cases h
    rfl

/-- A comment is read up to the line break. -/
theorem skipLine_eq {body rest : List Char} (hbody : '\n' ∉ body)
    (hunread : m.source.unread = body ++ '\n' :: rest) :
    skipLine keep m = m.take keep (body ++ ['\n']) ⟨none, rest⟩ := by
  induction body generalizing m with
  | nil => rw [skipLine_cons hunread, if_pos rfl, List.nil_append]
  | cons c body ih =>
    rw [List.mem_cons, not_or] at hbody
    rw [skipLine_cons hunread, if_neg (Ne.symm hbody.1), ih hbody.2 rfl, take_take]
    rfl

/-- A comment that lacks its line break is read to the end of the text. -/
theorem skipLine_eq_of_open {body : List Char} (hbody : '\n' ∉ body)
    (hunread : m.source.unread = body) : skipLine keep m = m.take keep body ⟨none, []⟩ := by
  induction body generalizing m with
  | nil => exact skipLine_nil hunread
  | cons c body ih =>
    rw [List.mem_cons, not_or] at hbody
    rw [skipLine_cons hunread, if_neg (Ne.symm hbody.1), ih hbody.2 rfl, take_take]
    rfl

theorem skipBlock_nil {last : Option Char} (hunread : m.source.unread = []) :
    skipBlock keep last m = (some .comment, m.take keep [] ⟨none, []⟩) := by
  rw [skipBlock]
  split
  · next h =>
    rw [Reader.next_of_nil hunread] at h
    cases h
    rfl
  · next h =>
    rw [Reader.next_of_nil hunread] at h
    cases h

theorem skipBlock_cons {last : Option Char} {c : Char} {s : List Char}
    (hunread : m.source.unread = c :: s) :
    skipBlock keep last m = if last = some '*' ∧ c = '/' then (none, m.take keep [c] ⟨none, s⟩)
      else skipBlock keep (some c) (m.take keep [c] ⟨none, s⟩) := by
  rw [skipBlock]
  split
  · next h =>
    rw [Reader.next_of_cons hunread] at h
    cases h
  · next h =>
    rw [Reader.next_of_cons hunread] at h
    cases h
    rfl

/-- Where no `*/` is, the comment neither ends here nor later. -/
theorem not_end_of_not_infix {last : Option Char} {c : Char} {s : List Char}
    (h : ¬ ['*', '/'] <:+: last.toList ++ c :: s) :
    ¬ (last = some '*' ∧ c = '/') ∧ ¬ ['*', '/'] <:+: (some c).toList ++ s := by
  constructor
  · rintro ⟨rfl, rfl⟩
    exact h ⟨[], s, rfl⟩
  · exact fun hlater => h (hlater.trans (List.suffix_append last.toList (c :: s)).isInfix)

/-- A comment is read up to the first `*/`. -/
theorem skipBlock_eq {last : Option Char} {body rest : List Char}
    (hbody : ¬ ['*', '/'] <:+: last.toList ++ body)
    (hunread : m.source.unread = body ++ '*' :: '/' :: rest) :
    skipBlock keep last m = (none, m.take keep (body ++ ['*', '/']) ⟨none, rest⟩) := by
  induction body generalizing m last with
  | nil =>
    rw [skipBlock_cons hunread, if_neg fun h => absurd h.2 (by decide), skipBlock_cons rfl,
      if_pos ⟨rfl, rfl⟩, take_take]
    rfl
  | cons c body ih =>
    obtain ⟨hend, hlater⟩ := not_end_of_not_infix hbody
    rw [skipBlock_cons hunread, if_neg hend, ih hlater rfl, take_take]
    rfl

/-- A comment that lacks its `*/` is read to the end of the text, and that is told. -/
theorem skipBlock_eq_of_open {last : Option Char} {body : List Char}
    (hbody : ¬ ['*', '/'] <:+: last.toList ++ body) (hunread : m.source.unread = body) :
    skipBlock keep last m = (some .comment, m.take keep body ⟨none, []⟩) := by
  induction body generalizing m last with
  | nil => exact skipBlock_nil hunread
  | cons c body ih =>
    obtain ⟨hend, hlater⟩ := not_end_of_not_infix hbody
    rw [skipBlock_cons hunread, if_neg hend, ih hlater rfl, take_take]
    rfl

/-- The ways in which a comment ends, and where reading it stops. -/
inductive CommentEnd (keep : Bool) (m : Scanner) : Char → Prop where
  | line {body rest : List Char} (hbody : '\n' ∉ body)
      (hunread : m.source.unread = body ++ '\n' :: rest)
      (hskip : skipComment keep '/' m = (none, m.take keep (body ++ ['\n']) ⟨none, rest⟩)) :
      CommentEnd keep m '/'
  | openLine (hbody : '\n' ∉ m.source.unread)
      (hskip : skipComment keep '/' m = (none, m.take keep m.source.unread ⟨none, []⟩)) :
      CommentEnd keep m '/'
  | block {body rest : List Char} (hbody : ¬ ['*', '/'] <:+: body)
      (hunread : m.source.unread = body ++ '*' :: '/' :: rest)
      (hskip : skipComment keep '*' m = (none, m.take keep (body ++ ['*', '/']) ⟨none, rest⟩)) :
      CommentEnd keep m '*'
  | openBlock (hbody : ¬ ['*', '/'] <:+: m.source.unread)
      (hskip : skipComment keep '*' m =
        (some .comment, m.take keep m.source.unread ⟨none, []⟩)) : CommentEnd keep m '*'

/-- Every comment ends in one of these ways. -/
theorem commentEnd {c : Char} (hc : opensComment c = true) (keep : Bool) (m : Scanner) :
    CommentEnd keep m c := by
  simp only [opensComment, Bool.or_eq_true, decide_eq_true_eq] at hc
  rcases hc with rfl | rfl
  · by_cases hline : '\n' ∈ m.source.unread
    · obtain ⟨body, rest, hunread, hbody⟩ := List.eq_append_cons_of_mem hline
      exact .line hbody hunread (congrArg (Prod.mk none) (skipLine_eq hbody hunread))
    · exact .openLine hline (congrArg (Prod.mk none) (skipLine_eq_of_open hline rfl))
  · by_cases hblock : ['*', '/'] <:+: m.source.unread
    · obtain ⟨body, rest, hbody, hunread⟩ := exists_blockComment hblock
      exact .block hbody hunread (skipBlock_eq hbody hunread)
    · exact .openBlock hblock (skipBlock_eq_of_open hblock rfl)

/-! ## Literals, tags and words -/

/-- A scan of a literal, behind a backslash if `escaped`. -/
def quotedFrom (quote : Char) : (escaped : Bool) → List Char → Scan
  | false, s => quoted quote s
  | true, [] => .error .literal
  | true, c :: s => .cons c (quoted quote s)

/-- Behind a backslash a literal goes on with whatever follows. -/
theorem quoted_backslash {quote : Char} (hquote : quote ≠ '\\') (s : List Char) :
    quoted quote ('\\' :: s) = Scan.cons '\\' (quotedFrom quote true s) := by
  cases s with
  | nil =>
    rw [quoted, if_neg (Ne.symm hquote), quoted]
    · rfl
    · exact fun _ _ _ h => absurd h.symm (List.cons_ne_nil _ _)
  | cons c s => rw [quoted]; rfl

/-- A literal is read as far as it goes, also from behind a backslash. -/
theorem readQuoted_eq {quote : Char} (hquote : quote ≠ '\\') (escaped : Bool) (m : Scanner) :
    readQuoted quote escaped m =
      m.stopAt m.source.unread (quotedFrom quote escaped m.source.unread) := by
  fun_induction readQuoted quote escaped m with
  | case1 escaped m source h =>
    -- the end of the text
    obtain ⟨hunread, rfl⟩ := Reader.eq_of_next_none h
    rw [hunread]
    cases escaped with
    | false => rw [quotedFrom, quoted]; rfl
    | true => rfl
  | case2 m c source h ih =>
    -- the character behind a backslash
    obtain ⟨s, hunread, rfl⟩ := Reader.eq_of_next_some h
    rw [ih, hunread, stopAt_take_cons]
    rfl
  | case3 escaped m source hescaped h ih =>
    -- a backslash
    obtain ⟨s, hunread, rfl⟩ := Reader.eq_of_next_some h
    rw [Bool.not_eq_true] at hescaped
    subst hescaped
    rw [ih, hunread, stopAt_take_cons, quotedFrom, quoted_backslash hquote]
    rfl
  | case4 escaped m source hescaped h hslash =>
    -- the quote that ends the literal
    obtain ⟨s, hunread, rfl⟩ := Reader.eq_of_next_some h
    rw [Bool.not_eq_true] at hescaped
    subst hescaped
    rw [hunread, quotedFrom, quoted_cons hslash, if_pos rfl]
    rfl
  | case5 escaped m c source h hescaped hslash hc ih =>
    -- any other character
    obtain ⟨s, hunread, rfl⟩ := Reader.eq_of_next_some h
    rw [Bool.not_eq_true] at hescaped
    subst hescaped
    rw [ih, hunread, stopAt_take_cons, quotedFrom, quotedFrom, quoted_cons hslash, if_neg hc]
    rfl

/-- A tag is read as far as it goes. -/
theorem readTag_eq (m : Scanner) : readTag m = m.stopAt m.source.unread (tag m.source.unread) := by
  fun_induction readTag m with
  | case1 m source h =>
    -- the end of the text
    obtain ⟨hunread, rfl⟩ := Reader.eq_of_next_none h
    rw [hunread, tag]
    rfl
  | case2 m source h =>
    -- the mark that ends the tag
    obtain ⟨s, hunread, rfl⟩ := Reader.eq_of_next_some h
    rw [hunread, tag, if_pos rfl]
    rfl
  | case3 m c source h hc ih =>
    -- any other character
    obtain ⟨s, hunread, rfl⟩ := Reader.eq_of_next_some h
    rw [ih, hunread, stopAt_take_cons, tag, if_neg hc]
    rfl

/-- A word is read as far as it goes, and what is behind it is handed back. -/
theorem readWord_eq (m : Scanner) : readWord m = .ok (m.take true (word m.source.unread).1
    ⟨(word m.source.unread).2.head?, (word m.source.unread).2.tail⟩) := by
  fun_induction readWord m with
  | case1 m source h =>
    -- the end of the text
    obtain ⟨hunread, rfl⟩ := Reader.eq_of_next_none h
    rw [hunread]
    rfl
  | case2 m c source h hc ih =>
    -- a character of the word
    obtain ⟨s, hunread, rfl⟩ := Reader.eq_of_next_some h
    rw [ih, hunread, take_take]
    simp [word, hc]
  | case3 m c source h hc =>
    -- the character behind the word is handed back
    obtain ⟨s, hunread, rfl⟩ := Reader.eq_of_next_some h
    rw [hunread]
    simp [word, hc, Reader.pushBack, Except.map]

/-! ## Code -/

/-- In code, a comment up to the end of its line is taken whole. -/
theorem code_lineComment (d : Nat) {body : List Char} (hbody : '\n' ∉ body) (rest : List Char) :
    code .lineComment d (body ++ '\n' :: rest) =
      Scan.prepend (body ++ ['\n']) (code .plain d rest) := by
  induction body with
  | nil =>
    rw [List.nil_append, code, if_pos rfl, List.nil_append, ← Scan.cons_prepend, Scan.prepend_nil]
  | cons c body ih =>
    rw [List.mem_cons, not_or] at hbody
    rw [List.cons_append, code, if_neg (Ne.symm hbody.1), ih hbody.2, Scan.cons_prepend]
    rfl

/-- Code that ends in a comment up to the end of its line is not closed. -/
theorem code_openLine (d : Nat) {body : List Char} (hbody : '\n' ∉ body) :
    code .lineComment d body = .error .code := by
  induction body with
  | nil => rw [code]
  | cons c body ih =>
    rw [List.mem_cons, not_or] at hbody
    rw [code, if_neg (Ne.symm hbody.1), ih hbody.2]
    rfl

/-- In code, a comment up to its `*/` is taken whole. -/
theorem code_blockComment (d : Nat) {body : List Char} (hbody : ¬ ['*', '/'] <:+: body)
    (rest : List Char) : code .blockComment d (body ++ '*' :: '/' :: rest) =
      Scan.prepend (body ++ ['*', '/']) (code .plain d rest) := by
  induction body with
  | nil =>
    rw [List.nil_append, code, List.nil_append, ← Scan.cons_prepend, ← Scan.cons_prepend,
      Scan.prepend_nil]
  | cons c body ih =>
    have hend : ∀ u, c = '*' → body ++ '*' :: '/' :: rest ≠ '/' :: u := by
      rintro u rfl hu
      exact not_closed_of_open hbody rest ⟨u, by rw [hu]; rfl⟩
    rw [List.cons_append, code_blockComment_cons hend, ih (not_end_of_cons hbody),
      Scan.cons_prepend]
    rfl

/-- Code that ends in a comment without its `*/` lacks the end of the comment. -/
theorem code_openBlock (d : Nat) {body : List Char} (hbody : ¬ ['*', '/'] <:+: body) :
    code .blockComment d body = .error .comment := by
  induction body with
  | nil => rw [code]
  | cons c body ih =>
    have hend : ∀ u, c = '*' → body ≠ '/' :: u := by
      rintro u rfl rfl
      exact hbody ⟨[], u, rfl⟩
    rw [code_blockComment_cons hend, ih (not_end_of_cons hbody)]
    rfl

/-- A comment in code is a part of it. -/
theorem skipComment_code {c : Char} (hc : opensComment c = true) (m : Scanner) (d : Nat) :
    (∃ text rest, skipComment true c m = (none, m.take true text ⟨none, rest⟩) ∧
        code .plain d ('/' :: c :: m.source.unread) =
          Scan.prepend ('/' :: c :: text) (code .plain d rest) ∧
        m.source.unread = text ++ rest) ∨
      skipComment true c m = (some .comment, m.take true m.source.unread ⟨none, []⟩) ∧
        code .plain d ('/' :: c :: m.source.unread) = .error .comment := by
  cases commentEnd hc true m with
  | @line body rest hbody hunread hskip =>
    refine Or.inl ⟨body ++ ['\n'], rest, hskip, ?_, by rw [hunread]; simp⟩
    rw [hunread, code, code_lineComment d hbody, Scan.cons_prepend, Scan.cons_prepend]
  | openLine hbody hskip =>
    -- a comment that only the text ends leaves the code open
    refine Or.inl ⟨m.source.unread, [], hskip, ?_, (List.append_nil _).symm⟩
    have hend : code .plain d [] = .error .code := by rw [code]
    rw [hend, code, code_openLine d hbody]
    rfl
  | @block body rest hbody hunread hskip =>
    refine Or.inl ⟨body ++ ['*', '/'], rest, hskip, ?_, by rw [hunread]; simp⟩
    rw [hunread, code, code_blockComment d hbody, Scan.cons_prepend, Scan.cons_prepend]
  | openBlock hbody hskip =>
    refine Or.inr ⟨hskip, ?_⟩
    rw [code, code_openBlock d hbody]
    rfl

/-- A literal in code is a part of it. -/
theorem code_literal {q : Char} (hq : q ≠ '\\') (d : Nat) (s : List Char) :
    code (.literal q) d s =
      match quoted q s with
      | .ok (text, rest) => Scan.prepend text (code .plain d rest)
      | .error _ => .error .code := by
  fun_induction quoted q s with
  | case1 => rw [code]
  | case2 c s ih =>
    -- an escape
    rw [code, ih]
    obtain e | ⟨text, rest⟩ := quoted q s
    · rfl
    · rw [Scan.cons_prepend, Scan.cons_prepend]
      rfl
  | case3 s =>
    -- the quote that ends the literal
    change _ = Scan.prepend [q] (code .plain d s)
    rw [code_literal_cons hq, if_pos rfl, ← Scan.cons_prepend, Scan.prepend_nil]
  | case4 c s hescape hc ih =>
    -- any other character
    by_cases hslash : c = '\\'
    · -- an escape that the text does not end
      cases s with
      | cons e s => exact (hescape e s hslash rfl).elim
      | nil =>
        have hend : code .plain d [] = .error .code := by rw [code]
        have hopen : code (.literal q) d [] = .error .code := by rw [code]
        rw [quoted, code, hend, hopen]
        · rw [ite_self]
          rfl
        · exact fun _ _ _ h => List.cons_ne_nil _ _ h.symm
    · rw [code_literal_cons hslash, if_neg hc, ih]
      obtain e | ⟨text, rest⟩ := quoted q s
      · rfl
      · rw [Scan.cons_prepend]
        rfl

/-- A slash that begins no comment is a part of the code. -/
theorem code_slash (d : Nat) {s : List Char} (hs : ∀ c u, s = c :: u → opensComment c = false) :
    code .plain d ('/' :: s) = Scan.cons '/' (code .plain d s) := by
  have hline (u : List Char) (_ : '/' = '/') : s ≠ '/' :: u :=
    fun h => absurd (hs '/' u h) (by decide)
  have hblock (u : List Char) (_ : '/' = '/') : s ≠ '*' :: u :=
    fun h => absurd (hs '*' u h) (by decide)
  have hcode := code_plain_cons (c := '/') (by decide) (by decide) hline hblock d
  rw [if_neg (by decide)] at hcode
  exact hcode

/-- Any other character stands for itself or begins a literal. -/
theorem code_other {c : Char} (hopen : c ≠ '{') (hclose : c ≠ '}') (hslash : c ≠ '/') (d : Nat)
    (s : List Char) :
    code .plain d (c :: s) = .cons c (code (if isQuote c then .literal c else .plain) d s) :=
  code_plain_cons hopen hclose (fun _ h => absurd h hslash) (fun _ h => absurd h hslash) d

/-- Where a literal in code ends, if it does. -/
theorem readQuoted_take {c : Char} (hquote : isQuote c = true) (m : Scanner) (s : List Char) :
    readQuoted c false (m.take true [c] ⟨none, s⟩) = m.stopAt (c :: s) (.cons c (quoted c s)) := by
  rw [readQuoted_eq (ne_backslash_of_isQuote hquote), source_take, Reader.unread_none, quotedFrom,
    stopAt_take_cons]

/-! ### One turn of the loop over code

The loop looks at one character, or at two if the first one is a slash. Each lemma says of one kind
of them that the scan goes on where the loop does. -/

/-- Where the loop over code stops, if `d + 1` braces are open. -/
def codeStop (d : Nat) (m : Scanner) : Stop :=
  m.stopAt m.source.unread (code .plain d m.source.unread)

variable {c : Char} {s : List Char}

/-- The text ends in the code. -/
theorem codeStop_nil (d : Nat) (hunread : m.source.unread = []) :
    m.codeStop d = (some .code, m.take true [] ⟨none, []⟩) := by
  rw [codeStop, hunread, code]
  rfl

/-- A brace is opened. -/
theorem codeStop_open (d : Nat) (hunread : m.source.unread = '{' :: s) :
    m.codeStop d = (m.take true ['{'] ⟨none, s⟩).codeStop (d + 1) := by
  rw [codeStop, hunread, codeStop, stopAt_take_cons]
  cases d <;> rfl

/-- The brace is closed that the code began with. -/
theorem codeStop_closeLast (hunread : m.source.unread = '}' :: s) :
    m.codeStop 0 = (none, m.take true ['}'] ⟨none, s⟩) := by
  rw [codeStop, hunread]
  rfl

/-- A brace is closed, and others stay open. -/
theorem codeStop_close (d : Nat) (hunread : m.source.unread = '}' :: s) :
    m.codeStop (d + 1) = (m.take true ['}'] ⟨none, s⟩).codeStop d := by
  rw [codeStop, hunread, codeStop, stopAt_take_cons]
  rfl

/-- The text ends behind a slash. -/
theorem codeStop_slashLast (d : Nat) (hunread : m.source.unread = ['/']) :
    m.codeStop d = (some .code, m.take true ['/'] ⟨none, []⟩) := by
  have hend : code .plain d [] = .error .code := by rw [code]
  rw [codeStop, hunread, code_slash d fun _ _ hnil => absurd hnil.symm (List.cons_ne_nil _ _), hend]
  rfl

/-- A slash begins no comment. The character behind it is looked at again. -/
theorem codeStop_slash (d : Nat) (hc : opensComment c = false)
    (hunread : m.source.unread = '/' :: c :: s) :
    m.codeStop d = (m.take true ['/'] ⟨some c, s⟩).codeStop d := by
  have hopener : ∀ e u, c :: s = e :: u → opensComment e = false := by
    rintro e u hcons
    rw [← (List.cons.inj hcons).1]
    exact hc
  rw [codeStop, hunread, codeStop, stopAt_take_cons, code_slash d hopener]
  rfl

/-- A comment is passed over, or the text ends in it. -/
theorem codeStop_comment (d : Nat) (hc : opensComment c = true)
    (hunread : m.source.unread = '/' :: c :: s) :
    m.codeStop d =
      match skipComment true c (m.take true ['/', c] ⟨none, s⟩) with
      | (some what, m') => (some what, m')
      | (none, m') => m'.codeStop d := by
  rcases skipComment_code hc (m.take true ['/', c] ⟨none, s⟩) d with
    ⟨text, rest, hskip, hcode, hsplit⟩ | ⟨hskip, hcode⟩
  · -- the scan goes on behind the comment
    rw [source_take, Reader.unread_none] at hcode hsplit
    rw [hskip]
    dsimp only
    rw [codeStop, hunread, hcode, hsplit, codeStop, take_take, stopAt_take]
    rfl
  · -- both stop at the end of the text
    rw [source_take, Reader.unread_none] at hcode
    rw [hskip, codeStop, hunread, hcode, take_take]
    rfl

/-- A literal is passed over, or the text ends in it; then it is the code that is not closed. -/
theorem codeStop_literal (d : Nat) (hopen : c ≠ '{') (hclose : c ≠ '}') (hslash : c ≠ '/')
    (hquote : isQuote c = true) (hunread : m.source.unread = c :: s) :
    m.codeStop d =
      match readQuoted c false (m.take true [c] ⟨none, s⟩) with
      | (some _, m') => (some .code, m')
      | (none, m') => m'.codeStop d := by
  have hsplits := quoted_splits c s
  rw [readQuoted_take hquote, codeStop, hunread, code_other hopen hclose hslash, if_pos hquote,
    code_literal (ne_backslash_of_isQuote hquote)]
  cases hs : quoted c s with
  | error what => rfl
  | ok taken =>
    obtain ⟨text, rest⟩ := taken
    -- the literal and what is behind it are the text behind the quote
    rw [hs] at hsplits
    change text ++ rest = s at hsplits
    change _ = (m.take true (c :: text) ⟨none, rest⟩).codeStop d
    rw [codeStop, stopAt_take, Scan.cons_prepend, ← hsplits]
    rfl

/-- Any other character stands for itself. -/
theorem codeStop_other (d : Nat) (hopen : c ≠ '{') (hclose : c ≠ '}') (hslash : c ≠ '/')
    (hquote : ¬ isQuote c = true) (hunread : m.source.unread = c :: s) :
    m.codeStop d = (m.take true [c] ⟨none, s⟩).codeStop d := by
  rw [codeStop, hunread, codeStop, stopAt_take_cons, code_other hopen hclose hslash, if_neg hquote]
  rfl

/-- Code is read as it is scanned, and no character is handed back too early. At least one brace is
open while code is read, so the level never falls below zero. -/
theorem readCode_eq (d : Nat) (m : Scanner) :
    readCode (d + 1) m = .ok (m.stopAt m.source.unread (code .plain d m.source.unread)) := by
  change readCode (d + 1) m = .ok (m.codeStop d)
  -- the induction follows the loop, and each case is the turn for one kind of character
  generalize hlevel : d + 1 = level
  fun_induction readCode level m generalizing d with
  | case1 level m source h =>
    -- the end of the text
    obtain ⟨hunread, rfl⟩ := Reader.eq_of_next_none h
    rw [codeStop_nil d hunread]
  | case2 level m source h ih =>
    -- a brace that is opened
    obtain ⟨s, hunread, rfl⟩ := Reader.eq_of_next_some h
    rw [ih (d + 1) (congrArg (· + 1) hlevel), codeStop_open d hunread]
  | case3 level m source fault hlower =>
    -- the level is not zero, so it can be lowered
    rw [← hlevel, Guarded.lower_succ] at hlower
    cases hlower
  | case4 level m source hlower h =>
    -- the last brace that is closed
    obtain ⟨s, hunread, rfl⟩ := Reader.eq_of_next_some h
    rw [← hlevel, Guarded.lower_succ] at hlower
    cases hlower
    rw [codeStop_closeLast hunread]
  | case5 level m source left hlower h _ ih =>
    -- another brace that is closed
    obtain ⟨s, hunread, rfl⟩ := Reader.eq_of_next_some h
    rw [← hlevel, Guarded.lower_succ] at hlower
    cases hlower
    rw [ih left rfl, codeStop_close left hunread]
  | case6 level m source source' h' h =>
    -- a slash at the end of the text
    obtain ⟨s, hunread, rfl⟩ := Reader.eq_of_next_some h
    obtain ⟨hnil, rfl⟩ := Reader.eq_of_next_none h'
    cases hnil
    rw [codeStop_slashLast d hunread]
  | case7 level m source c source' h' hc what m' h _ _ hcomment =>
    -- a comment that is not closed
    obtain ⟨s, hunread, rfl⟩ := Reader.eq_of_next_some h
    obtain ⟨s', rfl, rfl⟩ := Reader.eq_of_next_some h'
    rw [codeStop_comment d hc hunread, hcomment]
  | case8 level m source c source' h' hc m' h _ _ hcomment ih =>
    -- a comment that is closed
    obtain ⟨s, hunread, rfl⟩ := Reader.eq_of_next_some h
    obtain ⟨s', rfl, rfl⟩ := Reader.eq_of_next_some h'
    rw [ih d hlevel, codeStop_comment d hc hunread, hcomment]
  | case9 level m source c source' h' hc fault hback h =>
    -- the character behind a slash was read, so there is room to hand it back
    obtain ⟨s', -, rfl⟩ := Reader.eq_of_next_some h'
    cases hback
  | case10 level m source c source' h' hc source'' hback h _ _ ih =>
    -- a slash that begins no comment
    obtain ⟨s, hunread, rfl⟩ := Reader.eq_of_next_some h
    obtain ⟨s', rfl, rfl⟩ := Reader.eq_of_next_some h'
    cases hback
    rw [ih d hlevel, codeStop_slash d (Bool.eq_false_iff.mpr hc) hunread]
  | case11 level m c source h hopen hclose hslash hquote what m' hquoted =>
    -- a literal that is not closed
    obtain ⟨s, hunread, rfl⟩ := Reader.eq_of_next_some h
    rw [codeStop_literal d hopen hclose hslash hquote hunread, hquoted]
  | case12 level m c source h hopen hclose hslash hquote m' hquoted ih =>
    -- a literal that is closed
    obtain ⟨s, hunread, rfl⟩ := Reader.eq_of_next_some h
    rw [ih d hlevel, codeStop_literal d hopen hclose hslash hquote hunread, hquoted]
  | case13 level m c source h hopen hclose hslash hquote ih =>
    -- any other character
    obtain ⟨s, hunread, rfl⟩ := Reader.eq_of_next_some h
    rw [ih d hlevel, codeStop_other d hopen hclose hslash hquote hunread]

/-! ## Tokens -/

/-- What a token that begins with `c` leaves in the reader, if `s` follows it. -/
def behind (c : Char) (s : List Char) : Reader :=
  if needsLookahead c then ⟨s.head?, s.tail⟩ else ⟨none, s⟩

theorem behind_of_isWordChar {c : Char} (hc : Letter.isWordChar c = true) (s : List Char) :
    behind c s = ⟨s.head?, s.tail⟩ := by
  simp [behind, needsLookahead, hc]

/-- Where reading the token that begins with `c` stops. -/
def tokenStop (m : Scanner) (c : Char) (s : List Char) : Stop :=
  match lexeme c s with
  | .ok (text, rest) => (none, m.take true text (behind c rest))
  | .error what => (some what, m.take true (c :: s) ⟨none, []⟩)

/-- A token is read as it is scanned. -/
theorem readToken_eq {c : Char} {s : List Char} {source : Reader} (hunread : source.unread = s)
    (hsource : Letter.isWordChar c = false → source = behind c s) :
    readToken c (m.take true [c] source) = .ok (m.tokenStop c s) := by
  -- a construct with a closing mark needs no look behind it
  have hstop (hc : needsLookahead c = false) (r : Scan) (h : lexeme c s = .cons c r) :
      (m.take true [c] source).stopAt s r = m.tokenStop c s := by
    rw [stopAt_take_cons, tokenStop, h]
    obtain e | ⟨text, rest⟩ := r
    · rfl
    · simp [stopAt, Scan.cons, behind, hc]
  by_cases hquote : isQuote c = true
  · have hc : needsLookahead c = false := by
      simp only [isQuote, Bool.or_eq_true, decide_eq_true_eq] at hquote
      rcases hquote with rfl | rfl <;> decide
    rw [readToken, if_pos hquote, readQuoted_eq (ne_backslash_of_isQuote hquote), source_take,
      hunread, hstop hc]
    rw [lexeme, if_pos hquote]
    rfl
  by_cases htag : c = '<'
  · subst htag
    rw [readToken, if_neg hquote, if_pos rfl, readTag_eq, source_take, hunread, hstop (by decide)]
    rfl
  by_cases hcode : c = '{'
  · subst hcode
    rw [readToken, if_neg hquote, if_neg htag, if_pos rfl, readCode_eq, source_take, hunread,
      hstop (by decide)]
    rfl
  have hlexeme : lexeme c s =
      if Letter.isWordChar c then .cons c (.ok (word s)) else .ok ([c], s) := by
    rw [lexeme, if_neg hquote, if_neg htag, if_neg hcode]
  rw [readToken, if_neg hquote, if_neg htag, if_neg hcode, tokenStop, hlexeme]
  by_cases hword : Letter.isWordChar c = true
  · rw [if_pos hword, if_pos hword, readWord_eq, source_take, hunread, take_take]
    simp [Scan.cons, behind_of_isWordChar hword, Except.map]
  · rw [if_neg hword, if_neg hword]
    rw [hsource (Bool.eq_false_iff.mpr hword)]

/-- A comment between tokens is skipped. -/
theorem skipComment_skip {c : Char} (hc : opensComment c = true) (m : Scanner) :
    (∃ text rest, skipComment false c m = (none, m.take false text ⟨none, rest⟩) ∧
        ∀ line mark, skip .outside line mark ('/' :: c :: m.source.unread) =
          skip .outside (line + newlines text) line rest) ∨
      skipComment false c m = (some .comment, m.take false m.source.unread ⟨none, []⟩) ∧
        ∀ line mark, skip .outside line mark ('/' :: c :: m.source.unread) =
          ⟨line + newlines m.source.unread, line, [], false⟩ := by
  cases commentEnd hc false m with
  | @line body rest hbody hunread hskip =>
    refine Or.inl ⟨body ++ ['\n'], rest, hskip, fun line mark => ?_⟩
    rw [hunread, skip, skip_lineComment hbody, newlines_append, newlines_eq_zero hbody]
    rfl
  | openLine hbody hskip =>
    refine Or.inl ⟨m.source.unread, [], hskip, fun line mark => ?_⟩
    rw [newlines_eq_zero hbody]
    exact skip_openLine hbody line line
  | @block body rest hbody hunread hskip =>
    refine Or.inl ⟨body ++ ['*', '/'], rest, hskip, fun line mark => ?_⟩
    rw [hunread, skip, skip_blockComment hbody, newlines_append]
    rfl
  | openBlock hbody hskip =>
    exact Or.inr ⟨hskip, fun line mark => by rw [skip, skip_openBlock hbody]⟩

/-- What was found, and the tokenizer behind it. -/
def outcome (r : Tokenizer.Found × Scanner) : Tokenizer.Found × Tokenizer := (r.1, r.2.tokenizer)

/-- A token is found where one begins. -/
theorem next_of_begins {c : Char} {s : List Char} (hunread : m.source.unread = c :: s)
    (hbegins : Begins c s) (htext : m.token.text = "") (source : Reader) :
    m.tokenizer.next = .ok (outcome ((m.start source).tokenStop c s).found) := by
  have hskip := skip_begins hbegins m.tokenizer.line m.tokenizer.startLine
  have hsource : m.tokenizer.source.unread = c :: s := hunread
  have hlines : newlines (c :: s) = newlines s := by
    rw [newlines_cons, if_neg hbegins.ne_newline, Nat.add_zero]
  unfold Tokenizer.next
  simp only [hsource, hskip, tokenStop]
  cases lexeme c s with
  | error what => simp [outcome, Stop.found, tokenizer, take, start, hlines]
  | ok r =>
    cases hback : needsLookahead c with
    | true =>
      simp [outcome, Stop.found, tokenizer, take, start, htext, behind, hback,
        Tokenizer.handBack_eq, bind, Except.bind]
    | false =>
      simp [outcome, Stop.found, tokenizer, take, start, htext, behind, hback, bind, Except.bind]

/-- Tokenizers that come to the same place behind their gaps find the same. -/
theorem next_of_skip {t t' : Tokenizer}
    (h : skip .outside t.line t.startLine t.source.unread =
      skip .outside t'.line t'.startLine t'.source.unread) : t.next = t'.next := by
  unfold Tokenizer.next
  rw [h]

/-- Reading on finds what the tokenizer finds, and hands no second character back. -/
theorem readOn_eq (m : Scanner) (htext : m.token.text = "") :
    (readOn m).map outcome = m.tokenizer.next := by
  have htoken {m : Scanner} {c : Char} {s : List Char} {source : Reader}
      (hunread : m.source.unread = c :: s) (hbegins : Begins c s) (htext : m.token.text = "")
      (hs : source.unread = s) (hsource : Letter.isWordChar c = false → source = behind c s) :
      ((readToken c ((m.start source).take true [c] source)).map Stop.found).map outcome =
        m.tokenizer.next := by
    rw [readToken_eq hs hsource, next_of_begins hunread hbegins htext source]
    rfl
  fun_induction readOn m with
  | case1 m source h =>
    -- the end of the text
    obtain ⟨hunread, rfl⟩ := Reader.eq_of_next_none h
    have hsource : m.tokenizer.source.unread = [] := hunread
    unfold Tokenizer.next
    simp only [hsource, skip]
    rfl
  | case2 m c source h hblank ih =>
    -- a blank
    obtain ⟨s, hunread, rfl⟩ := Reader.eq_of_next_some h
    rw [ih htext]
    apply next_of_skip
    change skip .outside (m.line + newlines [c]) m.token.line s =
      skip .outside m.line m.token.line m.source.unread
    rw [hunread, skip_blank hblank]
  | case3 m source source' h' h hblank =>
    -- a slash at the end of the text is a token
    obtain ⟨s, hunread, rfl⟩ := Reader.eq_of_next_some h
    obtain ⟨hnil, rfl⟩ := Reader.eq_of_next_none h'
    cases hnil
    have hbegins : Begins '/' [] := ⟨rfl, fun _ _ h => absurd h.symm (List.cons_ne_nil _ _)⟩
    exact htoken hunread hbegins htext rfl fun _ => rfl
  | case4 m source c source' h' hc what m' hcomment h hblank =>
    -- a comment that is not closed
    obtain ⟨s, hunread, rfl⟩ := Reader.eq_of_next_some h
    obtain ⟨s', rfl, rfl⟩ := Reader.eq_of_next_some h'
    rcases skipComment_skip hc (m.start ⟨none, s'⟩) with ⟨text, rest, hread, -⟩ | ⟨hread, hskip⟩
    · rw [hread] at hcomment
      cases hcomment
    · rw [hread] at hcomment
      cases hcomment
      have hsource : m.tokenizer.source.unread = '/' :: c :: s' := hunread
      have hgap : skip .outside m.tokenizer.line m.tokenizer.startLine ('/' :: c :: s') =
          ⟨m.tokenizer.line + newlines s', m.tokenizer.line, [], false⟩ := hskip _ _
      unfold Tokenizer.next
      simp only [hsource, hgap]
      rfl
  | case5 m source c source' h' hc m' hcomment h hblank ih =>
    -- a comment that is closed
    obtain ⟨s, hunread, rfl⟩ := Reader.eq_of_next_some h
    obtain ⟨s', rfl, rfl⟩ := Reader.eq_of_next_some h'
    rcases skipComment_skip hc (m.start ⟨none, s'⟩) with ⟨text, rest, hread, hskip⟩ | ⟨hread, -⟩
    · rw [hread] at hcomment
      cases hcomment
      rw [ih htext]
      apply next_of_skip
      change skip .outside (m.line + newlines text) m.line rest =
        skip .outside m.line m.token.line m.source.unread
      rw [hunread]
      exact (hskip m.line m.token.line).symm
    · rw [hread] at hcomment
      cases hcomment
  | case6 m source c source' h' hc fault hback =>
    -- there is room to hand the character behind a slash back
    obtain ⟨s', -, rfl⟩ := Reader.eq_of_next_some h'
    cases hback
  | case7 m source c source' h' hc source'' hback h hblank =>
    -- a slash that begins no comment is a token
    obtain ⟨s, hunread, rfl⟩ := Reader.eq_of_next_some h
    obtain ⟨s', rfl, rfl⟩ := Reader.eq_of_next_some h'
    cases hback
    have hopener : c ≠ '/' ∧ c ≠ '*' := by simpa [opensComment] using hc
    refine htoken hunread ⟨rfl, ?_⟩ htext rfl fun _ => rfl
    rintro d u hd ⟨-, hd'⟩
    rw [← (List.cons.inj hd).1] at hd'
    exact hd'.elim hopener.1 hopener.2
  | case8 m c source h hblank hslash =>
    -- the first character of any other token
    obtain ⟨s, hunread, rfl⟩ := Reader.eq_of_next_some h
    have hbegins : Begins c s := ⟨Bool.eq_false_iff.mpr hblank, fun _ _ _ h => hslash h.1⟩
    refine htoken hunread hbegins htext rfl fun hword => ?_
    simp [behind, needsLookahead, hslash, hword]

/-- Reading a token character by character finds what the tokenizer finds. -/
theorem next_eq (m : Scanner) : m.next.map outcome = m.tokenizer.next := readOn_eq _ rfl

end Scanner

end YaccGrammar
