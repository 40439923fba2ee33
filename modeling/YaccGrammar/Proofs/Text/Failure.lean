import YaccGrammar.Proofs.Text.CutOff
import YaccGrammar.Proofs.Text.Lossless

/-!
# Failures

Tokenizing fails exactly on a text that cuts off a construct, and only once: after a failure all of
the text has been read, and no further call yields anything.

## Main statements

- `Tokenizer.failsWith_of_takes`, `Tokenizer.takes_of_failsWith`: the calls up to a failure are
  those that take the tokens.
- `Scanner.fails_iff_cutOff`: on which texts reading character by character fails, and how often.
-/

namespace YaccGrammar

open Text

namespace Tokenizer

variable {t t₁ t' : Tokenizer} {ts : List Token} {what : Unterminated} {answers : List Answer}

/-! ## Behind the end of the text -/

/-- The answer to a call when nothing is left. -/
def Call.silent : Call → Answer
  | .next => .found .nothing
  | .takeRest => .rest ""

/-- The first call, and the others from where it has led. -/
theorem calls_cons {c : Call} {cs : List Call} {a : Answer} {later : List Answer}
    (hcall : call c t = .ok (a, t₁)) (hlater : calls cs t₁ = .ok (later, t')) :
    calls (c :: cs) t = .ok (a :: later, t') := by
  rw [calls, hcall]
  change (calls cs t₁ >>= fun later => Except.ok (a :: later.1, later.2)) = _
  rw [hlater]
  rfl

/-- A call for the next token answers what is found. -/
theorem call_next {found : Found} (h : t.next = .ok (found, t')) :
    call .next t = .ok (.found found, t') := by
  rw [call, h]
  rfl

/-- When nothing is left, a call is answered and leaves nothing. -/
theorem call_of_unread_nil (h : t.source.unread = []) (c : Call) :
    ∃ t', call c t = .ok (c.silent, t') ∧ t'.source.unread = [] := by
  cases c with
  | takeRest => exact ⟨t.takeRest.2, by simp [call, takeRest, Call.silent, h], rfl⟩
  | next =>
    have hnext : t.next = .ok (.nothing, ⟨⟨none, []⟩, t.line, t.startLine⟩) := by
      simp only [next, h, skip]
    exact ⟨_, call_next hnext, rfl⟩

/-- When nothing is left, nothing is found and nothing is taken. -/
theorem calls_of_unread_nil (h : t.source.unread = []) (cs : List Call) :
    ∃ t', calls cs t = .ok (cs.map Call.silent, t') ∧ t'.source.unread = [] := by
  induction cs generalizing t with
  | nil => exact ⟨t, rfl, h⟩
  | cons c cs ih =>
    obtain ⟨t₁, hcall, h₁⟩ := call_of_unread_nil h c
    obtain ⟨t', hlater, h'⟩ := ih h₁
    exact ⟨t', calls_cons hcall hlater, h'⟩

/-- Behind a construct that is cut off nothing is left. -/
theorem unread_of_next_cut (h : t.next = .ok (.cut what, t')) : t'.source.unread = [] := by
  obtain ⟨found, t'', hnext, hreads⟩ := reads_next t
  rw [h] at hnext
  cases hnext
  cases hreads with
  | cut hunread _ => exact hunread

/-- Behind the last gap nothing is left. -/
theorem unread_of_next_nothing (h : t.next = .ok (.nothing, t')) : t'.source.unread = [] := by
  obtain ⟨found, t'', hnext, hreads⟩ := reads_next t
  rw [h] at hnext
  cases hnext
  cases hreads with
  | nothing _ hunread _ => exact hunread

/-- No silent answer is a failure. -/
theorem countP_isCut_silent (cs : List Call) : (cs.map Call.silent).countP Answer.isCut = 0 := by
  rw [List.countP_eq_zero]
  intro a ha
  obtain ⟨c, -, rfl⟩ := List.mem_map.mp ha
  cases c <;> exact Bool.false_ne_true

/-- Whatever calls are made, at most one of them fails, and nothing is left then. -/
theorem exists_calls (cs : List Call) (t : Tokenizer) :
    ∃ answers t', calls cs t = .ok (answers, t') ∧ answers.countP Answer.isCut ≤ 1 ∧
      (0 < answers.countP Answer.isCut → t'.source.unread = []) := by
  induction cs generalizing t with
  | nil => exact ⟨[], t, rfl, Nat.zero_le _, fun h => absurd h (Nat.lt_irrefl 0)⟩
  | cons c cs ih =>
    -- a call that does not fail leaves the count to the later ones
    have hgoOn {a : Answer} {t₁ : Tokenizer} (hcall : call c t = .ok (a, t₁))
        (ha : a.isCut = false) :
        ∃ answers t', calls (c :: cs) t = .ok (answers, t') ∧ answers.countP Answer.isCut ≤ 1 ∧
          (0 < answers.countP Answer.isCut → t'.source.unread = []) := by
      obtain ⟨later, t', hlater, hcount, hunread⟩ := ih t₁
      refine ⟨a :: later, t', calls_cons hcall hlater, ?_, ?_⟩
      · simpa [ha] using hcount
      · simpa [ha] using hunread
    cases c with
    | takeRest => exact hgoOn (a := .rest t.takeRest.1) rfl rfl
    | next =>
      obtain ⟨⟨found, t₁⟩, hnext⟩ := t.next_isOk
      cases found with
      | token k => exact hgoOn (call_next hnext) rfl
      | nothing => exact hgoOn (call_next hnext) rfl
      | cut what =>
        -- all that follows is silent
        obtain ⟨t', hlater, hunread⟩ := calls_of_unread_nil (unread_of_next_cut hnext) cs
        refine ⟨_, t', calls_cons (call_next hnext) hlater, ?_, fun _ => hunread⟩
        rw [List.countP_cons, countP_isCut_silent]
        exact Nat.le_refl 1

/-! ## Calls up to a failure -/

/-- Reading the next token fails behind the given answers. -/
def FailsWith (t : Tokenizer) (answers : List Answer) (what : Unterminated) (t' : Tokenizer) :
    Prop :=
  calls (List.replicate (answers.length + 1) .next) t =
    .ok (answers ++ [.found (.cut what)], t')

/-- Where tokens are taken up to a failure, the calls fail there. -/
theorem failsWith_of_takes (h : Takes t ts t₁) (hnext : t₁.next = .ok (.cut what, t')) :
    FailsWith t (ts.map fun k => .found (.token k)) what t' := by
  induction h with
  | nil t => exact calls_cons (call_next hnext) rfl
  | cons hfirst _ ih => exact calls_cons (call_next hfirst) (ih hnext)

/-- Calls that are answered are answered one after the other. -/
theorem calls_cons_eq_ok {c : Call} {cs : List Call}
    (h : calls (c :: cs) t = .ok (answers, t')) :
    ∃ a t₁ later, call c t = .ok (a, t₁) ∧ calls cs t₁ = .ok (later, t') ∧
      answers = a :: later := by
  rw [calls] at h
  cases hcall : call c t with
  | error e =>
    rw [hcall] at h
    cases h
  | ok r =>
    rw [hcall] at h
    cases hlater : calls cs r.2 with
    | error e =>
      change (calls cs r.2 >>= fun later => Except.ok (r.1 :: later.1, later.2)) = _ at h
      rw [hlater] at h
      cases h
    | ok r' =>
      change (calls cs r.2 >>= fun later => Except.ok (r.1 :: later.1, later.2)) = _ at h
      rw [hlater] at h
      cases h
      exact ⟨r.1, r.2, r'.1, rfl, hlater, rfl⟩

/-- When nothing is left no call fails. -/
theorem not_calls_silent (h : t.source.unread = []) (cs : List Call) :
    calls cs t ≠ .ok (answers ++ [.found (.cut what)], t') := by
  intro hcalls
  obtain ⟨t'', hsilent, -⟩ := calls_of_unread_nil h cs
  rw [hsilent, Except.ok.injEq, Prod.mk.injEq] at hcalls
  have hcount := countP_isCut_silent cs
  rw [hcalls.1, List.countP_append] at hcount
  simp [Answer.isCut] at hcount

/-- The answers in front of a failure are the tokens that are taken. -/
theorem takes_of_failsWith (h : FailsWith t answers what t') :
    ∃ ts t₁, answers = ts.map (fun k => .found (.token k)) ∧ Takes t ts t₁ ∧
      t₁.next = .ok (.cut what, t') := by
  induction answers generalizing t with
  | nil =>
    obtain ⟨a, t₁, later, hcall, hlater, hanswers⟩ := calls_cons_eq_ok h
    obtain ⟨⟨found, t₂⟩, hnext⟩ := t.next_isOk
    rw [call_next hnext] at hcall
    cases hcall
    cases hlater
    cases hanswers
    exact ⟨[], t, rfl, .nil t, hnext⟩
  -- the first call finds a token, because after any other answer all is silent
  | cons a answers ih =>
    obtain ⟨b, t₁, later, hcall, hlater, hanswers⟩ := calls_cons_eq_ok h
    obtain ⟨⟨found, t₂⟩, hnext⟩ := t.next_isOk
    rw [call_next hnext] at hcall
    cases hcall
    cases hanswers
    cases found with
    | token k =>
      obtain ⟨ts, t₃, hmap, htakes, hcut⟩ := ih hlater
      exact ⟨k :: ts, t₃, by rw [hmap]; rfl, .cons hnext htakes, hcut⟩
    | nothing => exact absurd hlater (not_calls_silent (unread_of_next_nothing hnext) _)
    | cut what' => exact absurd hlater (not_calls_silent (unread_of_next_cut hnext) _)

/-! ## Texts -/

/-- The line breaks in front of what is left behind tokens and a gap are those that were counted. -/
theorem Takes.line_add_newlines {p gap rest : List Char} (h : Takes t ts t₁)
    (hunread : t.source.unread = p ++ rest) (hunread₁ : t₁.source.unread = gap ++ rest) :
    t₁.line + newlines gap = t.line + newlines p := by
  have hline := h.line_eq
  rw [hunread, hunread₁, newlines_append, newlines_append] at hline
  omega

/-- Where a text is cut off, the sequence is taken, and what follows is reported, with the line on
which it begins. -/
theorem exists_cut_of_isCutAt {p front rest : List Char}
    (h : IsCutAt what t.source.unread p front rest) :
    ∃ ts t₁ t', Takes t ts t₁ ∧ t₁.next = .ok (.cut what, t') ∧
      t'.startLine = t.line + newlines p := by
  -- what is cut off continues no word, so the sequence is taken as it stands
  obtain ⟨ts, t₁, gap, htakes, hunread₁, hgap⟩ :=
    exists_takes h.cutOff.isWordChar_head h.isSequence h.text_eq
  obtain ⟨t', hnext, -, hstart⟩ := next_of_cutOff h.cutOff hunread₁ hgap
  exact ⟨ts, t₁, t', htakes, hnext, hstart.trans (htakes.line_add_newlines h.text_eq hunread₁)⟩

/-- What is reported behind tokens that were taken is where the text is cut off. -/
theorem Takes.exists_isCutAt (htakes : Takes t ts t₁) (hnext : t₁.next = .ok (.cut what, t')) :
    ∃ p front rest, IsCutAt what t.source.unread p front rest := by
  obtain ⟨gap, front, rest, hunread, hgap, hcut⟩ := exists_cutOff_of_next hnext
  obtain ⟨p, htext, hp⟩ := htakes.exists_isSequence hgap hunread
  exact ⟨p, front, rest, htext, hp, hcut⟩

/-- Tokens are taken until there is no other one. -/
theorem exists_end (t : Tokenizer) : ∃ ts t₁ found t', Takes t ts t₁ ∧
    t₁.next = .ok (found, t') ∧ ∀ k, found ≠ .token k := by
  obtain ⟨⟨found, t'⟩, hnext⟩ := t.next_isOk
  cases found with
  | token k =>
    have hlength := length_of_next hnext
    obtain ⟨ts, t₁, found, t'', htakes, hend, hfound⟩ := t'.exists_end
    exact ⟨k :: ts, t₁, found, t'', .cons hnext htakes, hend, hfound⟩
  | nothing => exact ⟨[], t, .nothing, t', .nil t, hnext, nofun⟩
  | cut what => exact ⟨[], t, .cut what, t', .nil t, hnext, nofun⟩
termination_by t.source.unread.length

/-- There is one way to take all tokens. -/
theorem Takes.end_unique {us : List Token} {u₁ u' : Tokenizer} {found found' : Found}
    (h : Takes t ts t₁) (hend : t₁.next = .ok (found, t')) (hfound : ∀ k, found ≠ .token k)
    (h' : Takes t us u₁) (hend' : u₁.next = .ok (found', u')) (hfound' : ∀ k, found' ≠ .token k) :
    ts = us ∧ found = found' ∧ t' = u' := by
  -- the calls are answered in one way, so both lists begin with the same token
  induction h generalizing us with
  | nil t =>
    cases h' with
    | nil =>
      rw [hend] at hend'
      cases hend'
      exact ⟨rfl, rfl, rfl⟩
    | cons hnext _ =>
      rw [hend] at hnext
      cases hnext
      exact absurd rfl (hfound _)
  | cons hnext _ ih =>
    cases h' with
    | nil =>
      rw [hend'] at hnext
      cases hnext
      exact absurd rfl (hfound' _)
    | cons hnext' hus =>
      rw [hnext] at hnext'
      cases hnext'
      obtain ⟨rfl, hsame⟩ := ih hend hus
      exact ⟨rfl, hsame⟩

/-- All tokens of a text are found, and nothing else, if it is whole. -/
theorem exists_nothing_iff :
    (∃ ts t₁ t', Takes t ts t₁ ∧ t₁.next = .ok (.nothing, t')) ↔ IsWhole t.source.unread := by
  constructor
  · rintro ⟨ts, t₁, t', htakes, hnext⟩
    obtain ⟨found, t'', hnext', hreads⟩ := reads_next t₁
    rw [hnext] at hnext'
    cases hnext'
    cases hreads with
    | nothing hgap _ _ =>
      -- the last gap is complete, or a comment is left open in it
      rcases hgap with hgap | ⟨gap, body, hgap, hbody, hunread⟩
      · obtain ⟨p, htext, hp⟩ := htakes.exists_isSequence hgap (List.append_nil _).symm
        rw [List.append_nil] at htext
        exact .inl (htext ▸ hp)
      · obtain ⟨p, htext, hp⟩ := htakes.exists_isSequence hgap hunread
        exact .inr ⟨p, body, hbody, htext, hp⟩
  · rintro (hs | ⟨p, body, hbody, htext, hp⟩)
    · have hrest : ∀ c ∈ ([] : List Char).head?, Letter.isWordChar c = false := nofun
      obtain ⟨ts, t₁, gap, htakes, hunread, hgap⟩ :=
        exists_takes hrest hs (List.append_nil _).symm
      rw [List.append_nil] at hunread
      obtain ⟨t', hnext⟩ := next_of_gap (hunread ▸ hgap)
      exact ⟨ts, t₁, t', htakes, hnext⟩
    · have hrest : ∀ c ∈ ('/' :: '/' :: body).head?, Letter.isWordChar c = false := by
        rintro c ⟨⟩
        decide
      obtain ⟨ts, t₁, gap, htakes, hunread, hgap⟩ := exists_takes hrest hp htext
      obtain ⟨t', hnext, -⟩ := next_of_openLine hunread hgap hbody
      exact ⟨ts, t₁, t', htakes, hnext⟩

end Tokenizer

namespace Scanner

open Tokenizer

/-! ## Character by character -/

variable {m : Scanner} {answers : List Answer} {what : Unterminated}

/-- Calls are answered alike, be the text read character by character or not. -/
theorem calls_eq_ok_iff {cs : List Call} {t : Tokenizer} :
    Tokenizer.calls cs m.tokenizer = .ok (answers, t) ↔
      ∃ m', calls cs m = .ok (answers, m') ∧ m'.tokenizer = t := by
  rw [← calls_eq]
  cases calls cs m with
  | error fault => simp [Except.map]
  | ok r =>
    constructor
    · intro h
      cases h
      exact ⟨r.2, rfl, rfl⟩
    · rintro ⟨m', h, rfl⟩
      cases h
      rfl

/-- Reading the next token fails behind the given answers. -/
def FailsWith (text : String) (answers : List Answer) (what : Unterminated) (m : Scanner) : Prop :=
  calls (List.replicate (answers.length + 1) .next) (.ofString text) =
    .ok (answers ++ [.found (.cut what)], m)

/-- Reading one token after the other comes to a failure. -/
def Fails (text : String) (what : Unterminated) : Prop := ∃ answers m, FailsWith text answers what m

/-- What fails character by character fails for the tokenizer. -/
theorem failsWith_tokenizer {text : String} (h : FailsWith text answers what m) :
    Tokenizer.FailsWith (.ofString text) answers what m.tokenizer :=
  calls_eq_ok_iff.mpr ⟨m, h, rfl⟩

/-- A text fails as its tokens are found. -/
theorem exists_failsWith {text : String} {t : Tokenizer}
    (h : Tokenizer.FailsWith (.ofString text) answers what t) :
    ∃ m, FailsWith text answers what m := by
  obtain ⟨m, hm, -⟩ := (calls_eq_ok_iff (m := .ofString text)).mp h
  exact ⟨m, hm⟩

/-- A text fails just if its tokens lead to something that is cut off. -/
theorem fails_iff {text : String} : Fails text what ↔
    ∃ ts t₁ t', Takes (.ofString text) ts t₁ ∧ t₁.next = .ok (.cut what, t') := by
  constructor
  · rintro ⟨answers, m, h⟩
    obtain ⟨ts, t₁, -, htakes, hnext⟩ := takes_of_failsWith (failsWith_tokenizer h)
    exact ⟨ts, t₁, _, htakes, hnext⟩
  · rintro ⟨ts, t₁, t', htakes, hnext⟩
    exact ⟨_, exists_failsWith (failsWith_of_takes htakes hnext)⟩

/-- A text fails just if something is cut off at its end. -/
theorem fails_iff_exists_isCutAt {text : String} : Fails text what ↔
    ∃ p front rest, IsCutAt what text.toList p front rest := by
  rw [fails_iff]
  constructor
  · rintro ⟨ts, t₁, t', htakes, hnext⟩
    exact htakes.exists_isCutAt hnext
  · rintro ⟨p, front, rest, hcut⟩
    obtain ⟨ts, t₁, t', htakes, hnext, -⟩ :=
      exists_cut_of_isCutAt (t := .ofString text) hcut
    exact ⟨ts, t₁, t', htakes, hnext⟩

/-- A text is whole exactly if it does not fail. -/
theorem not_fails_iff {text : String} : (¬ ∃ what, Fails text what) ↔ IsWhole text.toList := by
  have hwhole := exists_nothing_iff (t := .ofString text)
  rw [show (Tokenizer.ofString text).source.unread = text.toList from rfl] at hwhole
  rw [← hwhole]
  constructor
  · intro hfails
    obtain ⟨ts, t₁, found, t', htakes, hnext, hfound⟩ := (Tokenizer.ofString text).exists_end
    cases found with
    | token k => exact absurd rfl (hfound k)
    | nothing => exact ⟨ts, t₁, t', htakes, hnext⟩
    | cut what => exact absurd ⟨what, fails_iff.mpr ⟨ts, t₁, t', htakes, hnext⟩⟩ hfails
  · rintro ⟨ts, t₁, t', htakes, hnext⟩ ⟨what, hfails⟩
    obtain ⟨us, u₁, u', htakes', hnext'⟩ := fails_iff.mp hfails
    have hsame := htakes.end_unique hnext nofun htakes' hnext' nofun
    cases hsame.2.1

/-- After a failure nothing is left. -/
theorem exists_calls_of_unread_nil (h : m.source.unread = []) (cs : List Call) :
    ∃ m', calls cs m = .ok (cs.map Call.silent, m') := by
  obtain ⟨t', hcalls, -⟩ := calls_of_unread_nil (t := m.tokenizer) h cs
  obtain ⟨m', hm', -⟩ := calls_eq_ok_iff.mp hcalls
  exact ⟨m', hm'⟩

/-- What is cut off behind a brace is what reading the code behind the brace reports. -/
theorem readCode_of_cutOff {front rest s : List Char} (hcut : CutOff what front rest)
    (hbrace : front ++ rest = '{' :: s) (hunread : m.source.unread = s) :
    ∃ m', readCode 1 m = .ok (some what, m') := by
  have hread := readCode_eq 0 m
  rw [Nat.zero_add, hunread] at hread
  -- a comment that begins with a slash does not begin with a brace
  have hcode : code .plain 0 s = .error what := by
    obtain ⟨t, -, hcomment, -⟩ | ⟨c, t, hsplit, -, hlexeme⟩ := lexeme_of_cutOff hcut
    · rw [hbrace] at hcomment
      cases hcomment
    · rw [hbrace] at hsplit
      cases hsplit
      rwa [lexeme_code, cons_eq_error_iff] at hlexeme
  rw [hcode] at hread
  exact ⟨_, hread⟩

/-- Reading one token after the other fails exactly on the texts that consist of a sequence of
blanks, complete comments and complete tokens, and then of a construct that is cut off, and it
reports the kind of that construct; behind a brace this is what reading the code reports. Any other
text is such a sequence, or one in front of a comment that lacks its line break. Whatever calls are
made, all of them are answered, and at most one of them fails; behind it all of the text has been
read, nothing more is found, and the rest is empty. -/
theorem fails_iff_cutOff :
    (∀ text what, Fails text what ↔ ∃ p front rest, IsCutAt what text.toList p front rest) ∧
      (∀ what front rest s, CutOff what front rest → front ++ rest = '{' :: s →
        ∀ m : Scanner, m.source.unread = s → ∃ m', readCode 1 m = .ok (some what, m')) ∧
      (∀ text, (¬ ∃ what, Fails text what) ↔ IsWhole text.toList) ∧
      ∀ text cs, ∃ answers m, calls cs (.ofString text) = .ok (answers, m) ∧
        answers.countP Answer.isCut ≤ 1 ∧
        (0 < answers.countP Answer.isCut → m.source.unread = [] ∧
          ∀ later, ∃ m', calls later m = .ok (later.map Call.silent, m')) := by
  refine ⟨fun text what => fails_iff_exists_isCutAt,
    fun what front rest s hcut hbrace m => readCode_of_cutOff hcut hbrace,
    fun text => not_fails_iff, fun text cs => ?_⟩
  -- the tokenizer answers all calls, and the scanner answers as it does
  obtain ⟨answers, t', hcalls, hcount, hunread⟩ := Tokenizer.exists_calls cs (.ofString text)
  obtain ⟨m, hm, rfl⟩ := (calls_eq_ok_iff (m := .ofString text)).mp hcalls
  exact ⟨answers, m, hm, hcount, fun hcut =>
    ⟨hunread hcut, exists_calls_of_unread_nil (hunread hcut)⟩⟩

/-- A tag behind a word is cut off, and so is a comment in code: reading the code reports the
comment. After the tag was reported nothing is found, and the rest is empty. -/
theorem fails_iff_cutOff_tag :
    Fails "a <" .tag ∧ CutOff .comment ['{'] ['/', '*'] ∧
      (∃ m', readCode 1 { source := .ofString "/*" } = .ok (some .comment, m')) ∧
      ∃ m, calls [.next, .next] (.ofString "a <") =
          .ok ([.found (.token ⟨"a", 1⟩), .found (.cut .tag)], m) ∧
        m.source.unread = [] ∧
        ∃ m', calls [.next, .takeRest] m = .ok ([.found .nothing, .rest ""], m') := by
  obtain ⟨hfails, hcode, -, hcalls⟩ := fails_iff_cutOff
  have hcomment : CutOff .comment ['{'] ['/', '*'] :=
    .codeComment (.body .nil) (by decide)
  refine ⟨?_, hcomment, hcode _ _ _ _ hcomment rfl _ rfl, ?_⟩
  · have hblank : IsSequence ['<'] [' '] := .trivium (s := []) (.blank (by decide)) .nil
    have hword : IsSequence ['<'] ['a', ' '] :=
      .token (x := ['a']) (.word (by decide) (by decide)) (by decide) hblank
    exact (hfails _ _).mpr ⟨['a', ' '], [], ['<'], by decide, hword, .tag (by decide)⟩
  · obtain ⟨answers, m, hm, -, hlater⟩ := hcalls "a <" [.next, .next]
    -- what the tokenizer answers is evaluated
    obtain ⟨t', ht'⟩ : ∃ t', Tokenizer.calls [.next, .next] (.ofString "a <") =
        .ok ([.found (.token ⟨"a", 1⟩), .found (.cut .tag)], t') := ⟨_, rfl⟩
    have hanswers := (calls_eq_ok_iff (m := .ofString "a <")).mpr ⟨m, hm, rfl⟩
    obtain ⟨rfl, -⟩ := Prod.mk.inj (Except.ok.inj (hanswers.symm.trans ht'))
    obtain ⟨hunread, hsilent⟩ := hlater (by decide)
    exact ⟨m, hm, hunread, hsilent [.next, .takeRest]⟩

end Scanner

end YaccGrammar
