import Mathlib.Data.List.Induction
import YaccGrammar.Proofs.Text.Failure
import YaccGrammar.Proofs.Token

/-!
# Where tokens stand

Tokens that are taken from a text stand in it one behind the other, and the line of a token is that
of its first character. So lines never go back, and none of them is beyond the last line of all.
The same holds of the line that is remembered for something that is not closed, which begins behind
the last token.

## Main statements

- `Takes.exists_placed`: tokens that are taken are placed in the text.
- `Placed.ascending`: the lines of placed tokens ascend within the text.
- `startLine_of_cut`: the line of something that is not closed.
-/

namespace YaccGrammar

namespace Text

/-- A beginning has no more line breaks than the whole. -/
theorem newlines_le_of_prefix {s t : List Char} (h : s <+: t) : newlines s ≤ newlines t :=
  h.sublist.count_le '\n'

/-- A character of the text stands on a line, as the line breaks in front of it tell. -/
def OnLine (text : List Char) (c : Char) (line : Nat) : Prop :=
  ∃ before after, text = before ++ c :: after ∧ line = 1 + newlines before

/-- Lines that never go back, each of which is one of the text. -/
structure Ascending (text : List Char) (lines : List Nat) : Prop where
  pairwise : lines.Pairwise (· ≤ ·)
  range : ∀ n ∈ lines, 1 ≤ n ∧ n ≤ 1 + newlines text

theorem ascending_nil (text : List Char) : Ascending text [] := ⟨.nil, nofun⟩

/-- What is found on some of the lines, in their order. -/
theorem Ascending.sublist {text : List Char} {lines lines' : List Nat} (h : Ascending text lines)
    (hsub : lines'.Sublist lines) : Ascending text lines' :=
  ⟨h.pairwise.sublist hsub, fun n hn => h.range n (hsub.subset hn)⟩

/-- Lines ascend if the next one is no smaller than all before, and in the text. -/
theorem Ascending.concat {text : List Char} {lines : List Nat} {n : Nat} (h : Ascending text lines)
    (hle : ∀ m ∈ lines, m ≤ n) (hpos : 1 ≤ n) (hn : n ≤ 1 + newlines text) :
    Ascending text (lines ++ [n]) where
  pairwise := by
    rw [List.pairwise_append]
    refine ⟨h.pairwise, List.pairwise_singleton _ n, ?_⟩
    simpa using hle
  range := by
    rw [List.forall_mem_append]
    refine ⟨h.range, ?_⟩
    simpa using ⟨hpos, hn⟩

end Text

namespace Tokenizer

open Text

/-- Tokens in a text, each with the gap in front of it, and what follows them. The line breaks in
front of a token tell its line. -/
structure Placed (text : List Char) (pieces : List (List Char × Token)) (rest : List Char) :
    Prop where
  text_eq : text = textOf pieces ++ rest
  gaps : ∀ p ∈ pieces, IsGap p.1
  lines : ∀ before p after, pieces = before ++ p :: after →
    p.2.line = 1 + newlines (textOf before ++ p.1)

namespace Placed

variable {text rest : List Char} {pieces : List (List Char × Token)}

/-- A token stands on the line that it knows. -/
theorem exists_text_eq (h : Placed text pieces rest) {k : Token} (hk : k ∈ pieces.map Prod.snd) :
    ∃ before after, text = before ++ k.text.toList ++ after ∧ k.line = 1 + newlines before := by
  obtain ⟨p, hp, rfl⟩ := List.mem_map.mp hk
  obtain ⟨before, after, rfl⟩ := List.append_of_mem hp
  refine ⟨textOf before ++ p.1, textOf after ++ rest, ?_, h.lines before p after rfl⟩
  rw [h.text_eq]
  simp [textOf]

theorem onLine_first (h : Placed text pieces rest) {k : Token} (hk : k ∈ pieces.map Prod.snd)
    {c : Char} (hfirst : k.first = c) (hc : c ≠ '\x00') : OnLine text c k.line := by
  obtain ⟨before, after, htext, hline⟩ := h.exists_text_eq hk
  obtain ⟨s, hs⟩ := Token.exists_text_eq_of_first hfirst hc
  exact ⟨before, s ++ after, by simp [htext, hs], hline⟩

/-- No token stands behind the end of what has been read. -/
theorem line_le (h : Placed text pieces rest) {k : Token} (hk : k ∈ pieces.map Prod.snd) :
    k.line ≤ 1 + newlines (textOf pieces) := by
  obtain ⟨p, hp, rfl⟩ := List.mem_map.mp hk
  obtain ⟨before, after, hpieces⟩ := List.append_of_mem hp
  have hprefix : textOf before ++ p.1 <+: textOf pieces :=
    ⟨p.2.text.toList ++ textOf after, by simp [hpieces, textOf]⟩
  have hle := newlines_le_of_prefix hprefix
  have hline := h.lines before p after hpieces
  omega

/-- The lines of tokens ascend. -/
theorem ascending (h : Placed text pieces rest) :
    Ascending text ((pieces.map Prod.snd).map Token.line) := by
  induction pieces using List.reverseRecOn generalizing rest with
  | nil => exact ascending_nil text
  | append_singleton pieces p ih =>
    have hbefore : Placed text pieces (p.1 ++ p.2.text.toList ++ rest) := by
      refine ⟨?_, fun q hq => h.gaps q (List.mem_append_left _ hq), ?_⟩
      · rw [h.text_eq, textOf_concat]
        simp
      · intro before q after hpieces
        exact h.lines before q (after ++ [p]) (by simp [hpieces])
    have hline : p.2.line = 1 + newlines (textOf pieces ++ p.1) := h.lines pieces p [] rfl
    have hprefix : textOf pieces ++ p.1 <+: text :=
      ⟨p.2.text.toList ++ rest, by simp [hbefore.text_eq]⟩
    have hle := newlines_le_of_prefix hprefix
    rw [List.map_append, List.map_append]
    apply (ih hbefore).concat
    · -- a token stands behind those in front of it
      intro n hn
      obtain ⟨k, hk, rfl⟩ := List.mem_map.mp hn
      have hk := hbefore.line_le hk
      rw [newlines_append] at hline
      omega
    · omega
    · omega

end Placed

section Takes

variable {text : List Char} {t t' : Tokenizer} {ts : List Token} {what : Unterminated}

/-- Tokens that are taken are pieces of the text, behind those that were taken before. -/
theorem Takes.exists_pieces (h : Takes t ts t') {answers : List Answer}
    {pieces : List (List Char × Token)} (hs : Splits text answers t pieces [] []) :
    ∃ pieces', Splits text (answers ++ ts.map fun k => .found (.token k)) t'
      (pieces ++ pieces') [] [] ∧ pieces'.map Prod.snd = ts := by
  induction h generalizing answers pieces with
  | nil t => exact ⟨[], by simpa using hs, rfl⟩
  | @cons t t₁ t' k ts hnext _ ih =>
    obtain ⟨g, hs₁⟩ := hs.of_reads (reads_of_next hnext)
    obtain ⟨pieces', hs', htokens⟩ := ih hs₁
    exact ⟨(g, k) :: pieces', by simpa using hs', by simp [htokens]⟩

/-- Tokens that are taken from a text are placed in it, and what is left begins on the line on which
the tokenizer stands. -/
theorem Takes.exists_placed {text : String} (h : Takes (.ofString text) ts t') :
    ∃ pieces, pieces.map Prod.snd = ts ∧ Placed text.toList pieces t'.source.unread ∧
      t'.line = 1 + newlines (textOf pieces) := by
  obtain ⟨pieces, hs, htokens⟩ := h.exists_pieces (splits_ofString text)
  have htaken : (ts.map fun k => Answer.found (.token k)).flatMap Answer.taken = [] := by
    simp [List.flatMap_map, Answer.taken]
  refine ⟨pieces, htokens, ⟨?_, hs.gaps, hs.lines⟩, ?_⟩
  · simpa [htaken] using hs.text_eq
  · simpa [htaken] using hs.line

/-- What is not closed begins behind what was read, and on a line of the text. -/
theorem startLine_of_cut (hnext : t.next = .ok (.cut what, t')) :
    t.line ≤ t'.startLine ∧ t'.startLine ≤ t.line + newlines t.source.unread := by
  obtain ⟨gap, front, rest, hunread, hgap, hcut⟩ := exists_cutOff_of_next hnext
  obtain ⟨t'', hnext', -, hstart⟩ := next_of_cutOff hcut hunread hgap
  rw [hnext] at hnext'
  cases hnext'
  have hle : newlines gap ≤ newlines t.source.unread :=
    newlines_le_of_prefix ⟨front ++ rest, hunread.symm⟩
  omega

/-- Where nothing is left, the tokenizer stands on the last line. -/
theorem line_of_nothing (hnext : t.next = .ok (.nothing, t')) :
    t'.line = t.line + newlines t.source.unread := by
  obtain ⟨found, t'', hnext', hreads⟩ := reads_next t
  rw [hnext] at hnext'
  cases hnext'
  cases hreads with
  | nothing _ _ hline => exact hline

end Takes

end Tokenizer

end YaccGrammar
