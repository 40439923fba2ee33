import YaccGrammar.Proofs.Text.Scanner

/-!
# Nothing is lost

A text that is read by any calls of the tokenizer is made up of the tokens that were found, the gaps
in front of them, and what is left. The line that a token or the tokenizer stands on is told by the
line breaks in front of it.

## Main statement

- `exists_splits`: the text, its tokens and its lines, after any sequence of calls.
-/

namespace YaccGrammar

open Text

namespace Tokenizer

/-- The two ways of reading on. -/
inductive Call where
  /-- The next token. -/
  | next
  /-- All that is left. -/
  | takeRest
  deriving DecidableEq

/-- What a call yields. -/
inductive Answer where
  | found (found : Found)
  | rest (text : String)
  deriving DecidableEq

/-- Makes a call. -/
def call : Call → Tokenizer → Except Fault (Answer × Tokenizer)
  | .next, t => t.next.map fun r => (.found r.1, r.2)
  | .takeRest, t => .ok (.rest t.takeRest.1, t.takeRest.2)

/-- Makes one call after the other. -/
def calls : List Call → Tokenizer → Except Fault (List Answer × Tokenizer)
  | [], t => .ok ([], t)
  | c :: cs, t => do
    let r ← call c t
    let later ← calls cs r.2
    return (r.1 :: later.1, later.2)

end Tokenizer

namespace Scanner

open Tokenizer

/-- Makes a call, character by character. -/
def call : Call → Scanner → Except Fault (Answer × Scanner)
  | .next, m => m.next.map fun r => (.found r.1, r.2)
  | .takeRest, m => .ok (.rest m.takeRest.1, m.takeRest.2)

/-- Makes one call after the other, character by character. -/
def calls : List Call → Scanner → Except Fault (List Answer × Scanner)
  | [], m => .ok ([], m)
  | c :: cs, m => do
    let r ← call c m
    let later ← calls cs r.2
    return (r.1 :: later.1, later.2)

/-- A call is answered as by the tokenizer. -/
theorem call_eq (c : Call) (m : Scanner) :
    (call c m).map (fun r => (r.1, r.2.tokenizer)) = Tokenizer.call c m.tokenizer := by
  cases c with
  | takeRest => rfl
  | next =>
    rw [call, Tokenizer.call, ← next_eq]
    cases m.next with
    | error fault => rfl
    | ok r => rfl

/-- All calls are answered in the same way as by the tokenizer. -/
theorem calls_eq (cs : List Call) (m : Scanner) :
    (calls cs m).map (fun r => (r.1, r.2.tokenizer)) = Tokenizer.calls cs m.tokenizer := by
  induction cs generalizing m with
  | nil => rfl
  | cons c cs ih =>
    rw [calls, Tokenizer.calls, ← call_eq]
    cases call c m with
    | error fault => rfl
    | ok r =>
      change (calls cs r.2 >>= fun later => Except.ok (r.1 :: later.1, later.2)).map _ =
        (Tokenizer.calls cs r.2.tokenizer >>= fun later => Except.ok (r.1 :: later.1, later.2))
      -- the later calls start from scanners that stand at the same place
      rw [← ih]
      cases calls cs r.2 with
      | error fault => rfl
      | ok later => rfl

end Scanner

namespace Tokenizer

/-- The token that was found. -/
def Answer.token? : Answer → Option Token
  | found (.token k) => some k
  | _ => none

/-- The text that was taken as it stands. -/
def Answer.taken : Answer → List Char
  | rest text => text.toList
  | _ => []

/-- The text does not close a construct. -/
def Answer.isCut : Answer → Bool
  | found (.cut _) => true
  | _ => false

/-- The text of some tokens, each with the gap in front of it. -/
def textOf (pieces : List (List Char × Token)) : List Char :=
  pieces.flatMap fun p => p.1 ++ p.2.text.toList

/-- Calls with the given answers have split a text, up to where the tokenizer stands, into the
tokens, each with the gap in front of it, the gap behind the last token, what was read of a
construct that is not closed, and what was taken as it stands. -/
structure Splits (text : List Char) (answers : List Answer) (t : Tokenizer)
    (pieces : List (List Char × Token)) (gap lost : List Char) : Prop where
  tokens : pieces.map Prod.snd = answers.filterMap Answer.token?
  text_eq : text = textOf pieces ++ gap ++ lost ++ answers.flatMap Answer.taken ++ t.source.unread
  gaps : ∀ p ∈ pieces, IsGap p.1
  /-- Only a comment that the text ends in may be left open. -/
  last : IsGap gap ∨ IsOpenGap gap ∧ answers.flatMap Answer.taken ++ t.source.unread = []
  lost_eq : (∀ a ∈ answers, a.isCut = false) → lost = []
  /-- As long as something is left, it stands right behind the last token. -/
  unread : t.source.unread ≠ [] → gap ++ lost ++ answers.flatMap Answer.taken = []
  /-- Each token stands on its line. -/
  lines : ∀ before p after, pieces = before ++ p :: after →
    p.2.line = 1 + newlines (textOf before ++ p.1)
  /-- The tokenizer stands on the line of the next character. -/
  line : t.line = 1 + newlines (textOf pieces ++ gap ++ lost ++ answers.flatMap Answer.taken)

/-- One more token and the gap in front of it. -/
theorem textOf_concat (pieces : List (List Char × Token)) (p : List Char × Token) :
    textOf (pieces ++ [p]) = textOf pieces ++ (p.1 ++ p.2.text.toList) := by
  simp [textOf]

/-- At the start all of the text is left. -/
theorem splits_ofString (text : String) : Splits text.toList [] (.ofString text) [] [] [] where
  tokens := rfl
  text_eq := rfl
  gaps := fun _ h => nomatch h
  last := Or.inl .nil
  lost_eq := fun _ => rfl
  unread := fun _ => rfl
  lines := by simp
  line := rfl

namespace Splits

variable {text : List Char} {answers : List Answer} {t t' : Tokenizer}
  {pieces : List (List Char × Token)} {gap lost : List Char}

/-- A token has been found. -/
theorem token (hs : Splits text answers t pieces gap lost) {g : List Char} {k : Token}
    (hgap : IsGap g) (hunread : t.source.unread = g ++ k.text.toList ++ t'.source.unread)
    (htext : k.text.toList ≠ []) (hline : k.line = t.line + newlines g)
    (hline' : t'.line = k.line + newlines k.text.toList) :
    Splits text (answers ++ [.found (.token k)]) t' (pieces ++ [(g, k)]) [] [] := by
  -- a token is found only as long as something is left
  have hleft : t.source.unread ≠ [] := by
    rw [hunread]
    simp [htext]
  have hnone := hs.unread hleft
  rw [List.append_eq_nil_iff, List.append_eq_nil_iff] at hnone
  obtain ⟨⟨rfl, rfl⟩, htaken⟩ := hnone
  have htaken' : (answers ++ [Answer.found (.token k)]).flatMap Answer.taken = [] := by
    rw [List.flatMap_append, htaken]
    rfl
  -- the lines that were read are those of the earlier tokens
  have hline₀ : t.line = 1 + newlines (textOf pieces) := by
    rw [hs.line, htaken]
    simp
  constructor
  case tokens =>
    rw [List.map_append, hs.tokens, List.filterMap_append]
    rfl
  case text_eq =>
    rw [hs.text_eq, htaken, htaken', textOf_concat, hunread]
    simp
  case gaps =>
    intro p hp
    rcases List.mem_append.mp hp with hp | hp
    · exact hs.gaps p hp
    · rw [List.mem_singleton.mp hp]
      exact hgap
  case last => exact Or.inl .nil
  case lost_eq => exact fun _ => rfl
  case unread => exact fun _ => htaken'
  case lines =>
    intro before p after hp
    -- the token in question is the new one, or it was there before
    rcases List.eq_nil_or_concat after with rfl | ⟨after, q, rfl⟩
    · obtain ⟨rfl, hlast⟩ := List.append_inj' hp rfl
      obtain rfl := List.singleton_inj.mp hlast
      rw [hline, hline₀, newlines_append, Nat.add_assoc]
    · rw [List.concat_eq_append, ← List.cons_append, ← List.append_assoc] at hp
      obtain ⟨hbefore, -⟩ := List.append_inj' hp rfl
      exact hs.lines before p after hbefore
  case line =>
    rw [hline', hline, hline₀, htaken', textOf_concat, List.append_nil, List.append_nil,
      List.append_nil, newlines_append, newlines_append, Nat.add_assoc, Nat.add_assoc]

/-- What was read when a token was found is the gap in front of it and its text. -/
theorem of_reads (hs : Splits text answers t pieces gap lost) {k : Token}
    (hreads : Reads t (.token k) t') :
    ∃ g, Splits text (answers ++ [.found (.token k)]) t' (pieces ++ [(g, k)]) [] [] := by
  cases hreads with
  | @token g c s _ _ hunread hgap _ hlexeme hline hline' =>
    obtain ⟨u, htext, hsplit⟩ := lexeme_ok hlexeme
    -- what was left is the gap, the token, and what is left now
    have hpiece : t.source.unread = g ++ k.text.toList ++ t'.source.unread := by
      rw [hunread, htext, hsplit]
      simp
    have hne : k.text.toList ≠ [] := by
      rw [htext]
      exact List.cons_ne_nil c u
    exact ⟨g, hs.token hgap hpiece hne hline hline'⟩

/-- Nothing was skipped or taken so far, or nothing is left. -/
theorem left (hs : Splits text answers t pieces gap lost) :
    t.source.unread = [] ∨ gap = [] ∧ lost = [] ∧ answers.flatMap Answer.taken = [] := by
  by_cases hleft : t.source.unread = []
  · exact Or.inl hleft
  · have hnone := hs.unread hleft
    rw [List.append_eq_nil_iff, List.append_eq_nil_iff] at hnone
    exact Or.inr ⟨hnone.1.1, hnone.1.2, hnone.2⟩

/-- All that was left has been read, and no token was found. -/
theorem finish (hs : Splits text answers t pieces gap lost) {a : Answer} {gap' lost' : List Char}
    (htoken : a.token? = none)
    (hread : textOf pieces ++ gap' ++ lost' ++ (answers ++ [a]).flatMap Answer.taken =
      textOf pieces ++ gap ++ lost ++ answers.flatMap Answer.taken ++ t.source.unread)
    (hlast : IsGap gap' ∨ IsOpenGap gap' ∧ (answers ++ [a]).flatMap Answer.taken = [])
    (hlost : (∀ b ∈ answers ++ [a], b.isCut = false) → lost' = [])
    (hunread : t'.source.unread = []) (hline : t'.line = t.line + newlines t.source.unread) :
    Splits text (answers ++ [a]) t' pieces gap' lost' where
  -- no token is added, and the text is only divided in another way
  tokens := by
    rw [hs.tokens, List.filterMap_append, List.filterMap_cons_none htoken]
    exact (List.append_nil _).symm
  text_eq := by rw [hread, hunread, List.append_nil, hs.text_eq]
  gaps := hs.gaps
  last := by rwa [hunread, List.append_nil]
  lost_eq := hlost
  unread := fun h => absurd hunread h
  lines := hs.lines
  line := by rw [hline, hs.line, hread, newlines_append _ t.source.unread, Nat.add_assoc]

/-- A gap at the end of the text has been skipped. -/
theorem nothing (hs : Splits text answers t pieces gap lost)
    (hgap : IsGap t.source.unread ∨ IsOpenGap t.source.unread) (hunread : t'.source.unread = [])
    (hline : t'.line = t.line + newlines t.source.unread) :
    Splits text (answers ++ [.found .nothing]) t' pieces (gap ++ t.source.unread) lost := by
  have htaken : (answers ++ [Answer.found .nothing]).flatMap Answer.taken =
      answers.flatMap Answer.taken := by
    rw [List.flatMap_append]
    exact List.append_nil _
  refine hs.finish rfl ?_ ?_ (fun h => hs.lost_eq fun a ha => h a (List.mem_append_left _ ha))
    hunread hline
  · rw [htaken]
    -- nothing was left before, or everything up to here were tokens
    rcases hs.left with hnil | ⟨rfl, rfl, hnil⟩
    · simp [hnil]
    · simp [hnil]
  · rw [htaken]
    rcases hs.left with hnil | ⟨rfl, -, hnil⟩
    · have hlast := hs.last
      rwa [hnil, List.append_nil] at hlast ⊢
    · exact hgap.imp_right fun h => ⟨h, hnil⟩

/-- The text has ended within a construct. -/
theorem cut (hs : Splits text answers t pieces gap lost) {what : Unterminated}
    (hunread : t'.source.unread = []) (hline : t'.line = t.line + newlines t.source.unread) :
    Splits text (answers ++ [.found (.cut what)]) t' pieces gap (lost ++ t.source.unread) := by
  have htaken : (answers ++ [Answer.found (.cut what)]).flatMap Answer.taken =
      answers.flatMap Answer.taken := by
    rw [List.flatMap_append]
    exact List.append_nil _
  refine hs.finish rfl ?_ ?_ ?_ hunread hline
  · rw [htaken]
    rcases hs.left with hnil | ⟨rfl, rfl, hnil⟩
    · simp [hnil]
    · simp [hnil]
  · rw [htaken]
    exact hs.last.imp_right fun h => ⟨h.1, (List.append_eq_nil_iff.mp h.2).1⟩
  · intro h
    have hcut := h (.found (.cut what)) (List.mem_append_right _ (List.mem_singleton_self _))
    exact nomatch hcut

/-- What was left has been taken. -/
theorem takeRest (hs : Splits text answers t pieces gap lost) :
    Splits text (answers ++ [.rest t.takeRest.1]) t.takeRest.2 pieces gap lost := by
  have htaken : (answers ++ [Answer.rest t.takeRest.1]).flatMap Answer.taken =
      answers.flatMap Answer.taken ++ t.source.unread := by
    rw [List.flatMap_append]
    simp [Answer.taken, Tokenizer.takeRest]
  refine hs.finish rfl ?_ ?_ (fun h => hs.lost_eq fun a ha => h a (List.mem_append_left _ ha))
    rfl rfl
  · rw [htaken, ← List.append_assoc]
  · rw [htaken]
    exact hs.last

end Splits

/-- A call succeeds and splits the text further. -/
theorem splits_call {text : List Char} {answers : List Answer} {t : Tokenizer}
    {pieces : List (List Char × Token)} {gap lost : List Char}
    (hs : Splits text answers t pieces gap lost) (c : Call) :
    ∃ a t' pieces' gap' lost', call c t = .ok (a, t') ∧
      Splits text (answers ++ [a]) t' pieces' gap' lost' := by
  cases c with
  | takeRest => exact ⟨_, _, _, _, _, rfl, hs.takeRest⟩
  | next =>
    obtain ⟨found, t', hnext, hreads⟩ := reads_next t
    have hcall : call .next t = .ok (.found found, t') := by
      rw [call, hnext]
      rfl
    -- by what the call has read
    cases hreads with
    | token hunread hgap hbegins hlexeme hline hline' =>
      obtain ⟨g, hs'⟩ := hs.of_reads (.token hunread hgap hbegins hlexeme hline hline')
      exact ⟨_, _, _, _, _, hcall, hs'⟩
    | nothing hgap hunread hline => exact ⟨_, _, _, _, _, hcall, hs.nothing hgap hunread hline⟩
    | cut hunread hline => exact ⟨_, _, _, _, _, hcall, hs.cut hunread hline⟩

/-- No call ever fails to answer. -/
theorem splits_calls {text : List Char} {answers : List Answer} {t : Tokenizer}
    {pieces : List (List Char × Token)} {gap lost : List Char}
    (hs : Splits text answers t pieces gap lost) (cs : List Call) :
    ∃ later t' pieces' gap' lost', calls cs t = .ok (later, t') ∧
      Splits text (answers ++ later) t' pieces' gap' lost' := by
  induction cs generalizing answers t pieces gap lost with
  | nil => exact ⟨[], t, pieces, gap, lost, rfl, by rwa [List.append_nil]⟩
  | cons c cs ih =>
    obtain ⟨a, t₁, _, _, _, hcall, hs₁⟩ := splits_call hs c
    obtain ⟨later, t', pieces', gap', lost', hcalls, hs'⟩ := ih hs₁
    refine ⟨a :: later, t', pieces', gap', lost', ?_, ?_⟩
    · rw [calls, hcall]
      change (calls cs t₁ >>= fun later => Except.ok (a :: later.1, later.2)) = _
      rw [hcalls]
      rfl
    · rwa [List.append_assoc, List.singleton_append] at hs'

/-- Tokenizing loses nothing. Whatever calls are made of a tokenizer, all of them are answered, also
character by character, and the text is made up of the tokens and the gaps in front of them, a last
gap, and what is left; only a construct that the text does not close is lost. What is left is what
can be taken. -/
theorem exists_splits (text : String) (cs : List Call) :
    ∃ answers t pieces gap lost, calls cs (.ofString text) = .ok (answers, t) ∧
      (∃ m, Scanner.calls cs (.ofString text) = .ok (answers, m) ∧ m.tokenizer = t) ∧
      Splits text.toList answers t pieces gap lost ∧ t.takeRest.1.toList = t.source.unread := by
  obtain ⟨answers, t, pieces, gap, lost, hcalls, hs⟩ := splits_calls (splits_ofString text) cs
  -- the calls are answered in the same way character by character
  have hscanner : ∃ m, Scanner.calls cs (.ofString text) = .ok (answers, m) ∧ m.tokenizer = t := by
    have hsame := Scanner.calls_eq cs (.ofString text)
    change _ = calls cs (.ofString text) at hsame
    rw [hcalls] at hsame
    cases hm : Scanner.calls cs (.ofString text) with
    | error fault =>
      rw [hm] at hsame
      cases hsame
    | ok r =>
      rw [hm] at hsame
      cases hsame
      exact ⟨r.2, rfl, rfl⟩
  exact ⟨answers, t, pieces, gap, lost, hcalls, hscanner, hs, String.toList_ofList⟩

end Tokenizer

end YaccGrammar
