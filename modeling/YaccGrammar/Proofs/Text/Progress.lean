import YaccGrammar.Proofs.Text.Turns

/-!
# Turns read on

A turn may hand back a character that it has looked at, but then it has read another one, or it is
the last turn. So the characters that are left bound the turns that are left, and the turns come to
what the loops find. On the way every character is either left or put into the token, or lost in a
gap, so a token is no longer than what was read for it.

## Main statements

- `follows_turn`: what a turn has read, and that there are fewer turns behind it.
- `exists_leads`: the turns of a loop come to what the loop finds.
- `exists_turns`: the next token is read in at most one turn more than characters are left, and it
  shortens the text.
-/

namespace YaccGrammar.Scanner

open Text Tokenizer

/-- At least `n` characters fewer are left, and no character is both left and in the token. -/
structure Shrinks (n : Nat) (m m' : Scanner) : Prop where
  unread : m'.source.unread.length + n ≤ m.source.unread.length
  total : m'.token.size + m'.source.unread.length ≤ m.token.size + m.source.unread.length

/-- What has been read when the turns stop: at least `n` characters, unless nothing is left. -/
structure Advances (n : Nat) (m : Scanner) (found : Found) (m' : Scanner) : Prop where
  unread : found ≠ .nothing → m'.source.unread.length + n ≤ m.source.unread.length
  total : m'.token.size + m'.source.unread.length ≤ m.token.size + m.source.unread.length
  token_eq : ∀ k, found = .token k → k = m'.token
  unread_nil : found = .nothing → m'.source.unread = []

/-- How many characters a turn reads at least, if it does not find that nothing is left. The other
loops may end with a character that they hand back. -/
def Task.least : Task → Nat
  | .gap => 1
  | _ => 0

/-- How many turns there are at most. If the text ends a comment, the end is found once more behind
it. -/
def Task.bound (m : Scanner) : Task → Nat
  | .line _ => m.source.unread.length + 2
  | _ => m.source.unread.length + 1

/-- What a turn has read, and how many turns there are behind it. -/
def Follows (task : Task) (m : Scanner) : Turn → Prop
  | .goOn task' m' => task'.bound m' < task.bound m ∧ Shrinks task.least m m'
  | .stop r => Advances task.least m r.1 r.2

section Turns

variable {n : Nat} {m m' : Scanner} {task task' : Task} {next : Turn} {c : Char}
  {source source' : Reader} {inside : Option Nat}

theorem Task.least_le (task : Task) : task.least ≤ 1 := by
  cases task <;> simp [least]

theorem Task.le_bound (m : Scanner) (task : Task) : m.source.unread.length + 1 ≤ task.bound m := by
  cases task <;> simp [bound]

/-- No loop has more than two turns more than there are characters left. -/
theorem Task.bound_le (m : Scanner) (task : Task) : task.bound m ≤ m.source.unread.length + 2 := by
  cases task <;> simp [bound]

namespace Shrinks

theorem mono {k : Nat} (h : Shrinks n m m') (hk : k ≤ n) : Shrinks k m m' :=
  ⟨Nat.le_trans (Nat.add_le_add_left hk _) h.unread, h.total⟩

theorem token (h : Shrinks n m m') : Advances n m (.token m'.token) m' where
  unread := fun _ => h.unread
  total := h.total
  token_eq := by
    rintro k ⟨⟩
    rfl
  unread_nil := nofun

theorem cut (h : Shrinks n m m') (what : Unterminated) : Advances n m (.cut what) m' where
  unread := fun _ => h.unread
  total := h.total
  token_eq := nofun
  unread_nil := nofun

theorem nothing (h : Shrinks 0 m m') (hunread : m'.source.unread = []) :
    Advances n m .nothing m' where
  unread := fun hfound => absurd rfl hfound
  total := h.total
  token_eq := nofun
  unread_nil := fun _ => hunread

end Shrinks

/-- A token grows by what is put into it. -/
theorem size_take (keep : Bool) (s : List Char) (source : Reader) (m : Scanner) :
    (m.take keep s source).token.size = m.token.size + if keep then s.length else 0 := by
  cases keep <;> simp [take, Token.size]

/-- Characters that are taken are not left. -/
theorem shrinks_take (keep : Bool) {s : List Char}
    (h : source.unread.length + s.length ≤ m.source.unread.length) :
    Shrinks s.length m (m.take keep s source) := by
  refine ⟨h, ?_⟩
  rw [size_take, source_take]
  split <;> omega

theorem shrinks_end (keep : Bool) (h : m.source.next = (none, source)) :
    Shrinks 0 m (m.take keep [] source) := by
  obtain ⟨-, rfl⟩ := Reader.eq_of_next_none h
  exact shrinks_take keep (s := []) (Nat.zero_le _)

/-- A character is taken, and nothing else, even if one more was looked at. -/
theorem shrinks_next (keep : Bool) (h : m.source.next = (some c, source))
    (hsource : source'.unread.length ≤ source.unread.length) :
    Shrinks 1 m (m.take keep [c] source') := by
  have hlength := Reader.length_of_next h
  exact shrinks_take keep (s := [c]) (by rw [List.length_singleton]; omega)

/-- The first character of a token is taken. -/
theorem shrinks_first (h : m.source.next = (some c, source))
    (hsource : source'.unread.length ≤ source.unread.length) :
    Shrinks 1 m ((m.start source').take true [c] source') := by
  have hread := shrinks_next true h hsource
  refine ⟨hread.unread, ?_⟩
  -- the line of a token is none of its characters
  have htotal := hread.total
  rw [size_take, source_take] at htotal ⊢
  exact htotal

theorem length_le_of_next_none (h : source.next = (none, source')) :
    source'.unread.length ≤ source.unread.length := by
  obtain ⟨-, rfl⟩ := Reader.eq_of_next_none h
  exact Nat.zero_le _

/-- Two characters that are read are not left. -/
theorem length_of_next_twice {d : Char} {source'' : Reader} (h : source.next = (some c, source'))
    (h' : source'.next = (some d, source'')) :
    source''.unread.length + 2 ≤ source.unread.length := by
  have hlength := Reader.length_of_next h
  have hlength' := Reader.length_of_next h'
  omega

/-- A character that is handed back is left again. -/
theorem exists_of_pushBack {d : Char} {f : Reader → Turn} (h : source.next = (some d, source'))
    (hback : (Reader.pushBack d source').map f = .ok next) :
    ∃ source'', source''.unread.length ≤ source.unread.length ∧ next = f source'' := by
  cases hpush : Reader.pushBack d source' with
  | error fault =>
    rw [hpush] at hback
    cases hback
  | ok source'' =>
    rw [hpush] at hback
    cases hback
    have hlength := Reader.length_of_next h
    have hlength' := Reader.length_of_pushBack hpush
    exact ⟨source'', by omega, rfl⟩

/-- A character was taken, and any loop goes on that has no turn to spare. -/
theorem follows_goOn (h : Shrinks 1 m m') (hbound : task'.bound m' = m'.source.unread.length + 1) :
    Follows task m (.goOn task' m') := by
  have hread := h.unread
  have hle := task.le_bound m
  exact ⟨by omega, h.mono task.least_le⟩

/-- A comment has two characters in front of it. -/
theorem follows_comment {opener : Char} (h : Shrinks 2 m m') :
    Follows task m (.goOn (comment opener inside) m') := by
  have hread := h.unread
  have hle := task.le_bound m
  have hbound := (comment opener inside).bound_le m'
  exact ⟨by omega, h.mono (Nat.le_trans task.least_le (by decide))⟩

/-- Behind a comment there is no turn to spare. -/
theorem bound_behindComment (inside : Option Nat) (m : Scanner) :
    (inside.elim Task.gap Task.code).bound m = m.source.unread.length + 1 := by
  cases inside <;> rfl

/-- Behind its first character a token goes on, or ends. -/
theorem follows_behindFirst (h : Shrinks 1 m m') : Follows task m (behindFirst c m') := by
  unfold behindFirst
  split
  · exact follows_goOn h rfl
  split
  · exact follows_goOn h rfl
  split
  · exact follows_goOn h rfl
  split
  · exact follows_goOn h rfl
  · exact (h.mono task.least_le).token

theorem follows_gap (h : turn .gap m = .ok next) : Follows .gap m next := by
  simp only [turn] at h
  split at h
  · next hend =>
    cases h
    have hread := shrinks_end false hend
    obtain ⟨-, rfl⟩ := Reader.eq_of_next_none hend
    exact hread.nothing rfl
  · next c source hnext =>
    split at h
    · cases h
      exact follows_goOn (shrinks_next false hnext (Nat.le_refl _)) rfl
    split at h
    · -- a slash, behind which another character is looked at
      split at h
      · next hend =>
        cases h
        exact follows_behindFirst (shrinks_first hnext (length_le_of_next_none hend))
      · next d source' hnext' =>
        split at h
        · cases h
          have hunread := length_of_next_twice hnext hnext'
          have hle := Nat.le_trans (Nat.le_add_right _ 2) hunread
          exact follows_comment ⟨hunread, Nat.add_le_add_left hle _⟩
        · obtain ⟨source'', hlength, rfl⟩ := exists_of_pushBack hnext' h
          exact follows_behindFirst (shrinks_first hnext hlength)
    · cases h
      exact follows_behindFirst (shrinks_first hnext (Nat.le_refl _))

/-- At the end of the text a comment is left without reading anything. -/
theorem follows_line (h : turn (.line inside) m = .ok next) : Follows (.line inside) m next := by
  simp only [turn] at h
  split at h
  · next hend =>
    cases h
    have hread := shrinks_end inside.isSome hend
    -- nothing is read, but what follows the comment has fewer turns
    refine ⟨?_, hread⟩
    rw [bound_behindComment]
    exact Nat.add_lt_add_of_le_of_lt hread.unread (by decide)
  · next hnext =>
    have hread := shrinks_next inside.isSome hnext (Nat.le_refl _)
    split at h
    · cases h
      exact follows_goOn hread (bound_behindComment inside _)
    · cases h
      exact ⟨Nat.add_lt_add_right hread.unread 2, hread.mono (Nat.zero_le 1)⟩

theorem follows_block {last : Option Char} (h : turn (.block last inside) m = .ok next) :
    Follows (.block last inside) m next := by
  simp only [turn] at h
  split at h
  · next hend =>
    cases h
    exact (shrinks_end inside.isSome hend).cut .comment
  · next hnext =>
    have hread := shrinks_next inside.isSome hnext (Nat.le_refl _)
    split at h
    · cases h
      exact follows_goOn hread (bound_behindComment inside _)
    · cases h
      exact follows_goOn hread rfl

theorem follows_literal {quote : Char} {escaped : Bool}
    (h : turn (.literal quote escaped inside) m = .ok next) :
    Follows (.literal quote escaped inside) m next := by
  simp only [turn] at h
  split at h
  · next hend =>
    cases h
    have hread := shrinks_end true hend
    -- a literal in code lacks the brace of the code
    cases inside with
    | none => exact hread.cut .literal
    | some level => exact hread.cut .code
  · next hnext =>
    have hread := shrinks_next true hnext (Nat.le_refl _)
    split at h
    · cases h
      exact follows_goOn hread rfl
    split at h
    · cases h
      exact follows_goOn hread rfl
    split at h
    · cases h
      cases inside with
      | none => exact (hread.mono (Nat.zero_le 1)).token
      | some level => exact follows_goOn hread rfl
    · cases h
      exact follows_goOn hread rfl

theorem follows_tag (h : turn .tag m = .ok next) : Follows .tag m next := by
  simp only [turn] at h
  split at h
  · next hend =>
    cases h
    exact (shrinks_end true hend).cut .tag
  · next hnext =>
    have hread := shrinks_next true hnext (Nat.le_refl _)
    split at h
    · cases h
      exact (hread.mono (Nat.zero_le 1)).token
    · cases h
      exact follows_goOn hread rfl

/-- In code, two characters at most are looked at in one turn. -/
theorem follows_code {level : Nat} (h : turn (.code level) m = .ok next) :
    Follows (.code level) m next := by
  simp only [turn] at h
  split at h
  · next hend =>
    cases h
    exact (shrinks_end true hend).cut .code
  · next c source hnext =>
    have hread := shrinks_next true hnext (Nat.le_refl _)
    split at h
    · cases h
      exact follows_goOn hread rfl
    -- a closing brace
    split at h
    · cases hlower : Guarded.lower level with
      | error fault =>
        rw [hlower] at h
        cases h
      | ok left =>
        rw [hlower] at h
        cases h
        cases left with
        | zero => exact (hread.mono (Nat.zero_le 1)).token
        | succ left => exact follows_goOn hread rfl
    -- a slash, behind which another character is looked at
    split at h
    · split at h
      · next hend =>
        cases h
        have hread := shrinks_next true hnext (length_le_of_next_none hend)
        exact (hread.mono (Nat.zero_le 1)).cut .code
      · next d source' hnext' =>
        split at h
        · cases h
          have hunread := length_of_next_twice hnext hnext'
          exact follows_comment (shrinks_take (s := [c, d]) true hunread)
        · obtain ⟨source'', hlength, rfl⟩ := exists_of_pushBack hnext' h
          exact follows_goOn (shrinks_next true hnext hlength) rfl
    split at h
    · cases h
      exact follows_goOn hread rfl
    · cases h
      exact follows_goOn hread rfl

theorem follows_word (h : turn .word m = .ok next) : Follows .word m next := by
  simp only [turn] at h
  split at h
  · next hend =>
    cases h
    exact (shrinks_end true hend).token
  · next c source hnext =>
    split at h
    · cases h
      exact follows_goOn (shrinks_next true hnext (Nat.le_refl _)) rfl
    · -- the character behind the word is handed back
      obtain ⟨source', hlength, rfl⟩ := exists_of_pushBack hnext h
      exact (shrinks_take (s := []) true hlength).token

/-- Every turn reads on, and leaves fewer turns than there were. -/
theorem follows_turn (h : turn task m = .ok next) : Follows task m next := by
  cases task with
  | gap => exact follows_gap h
  | line => exact follows_line h
  | block => exact follows_block h
  | literal => exact follows_literal h
  | tag => exact follows_tag h
  | code => exact follows_code h
  | word => exact follows_word h

/-! ## Readings -/

/-- What was read first is added to what is read later. -/
theorem Shrinks.trans {k : Nat} {found : Found} {m'' : Scanner} (h : Shrinks n m m')
    (h' : Advances k m' found m'') : Advances n m found m'' where
  unread := by
    intro hfound
    have hfirst := h.unread
    have hlater := h'.unread hfound
    omega
  total := Nat.le_trans h'.total h.total
  token_eq := h'.token_eq
  unread_nil := h'.unread_nil

/-- A turn and what it leads to: how many turns these are at most, and what they have read. -/
theorem Leads.advances {r : Found × Scanner} (hturn : turn task m = .ok next)
    (h : Leads next n r) : n < task.bound m ∧ Advances task.least m r.1 r.2 := by
  -- on the turns that follow; what they have read is added to what the first one has
  induction h generalizing task m with
  | stop r =>
    have hbound := task.le_bound m
    exact ⟨by omega, follows_turn hturn⟩
  | goOn hturn' _ ih =>
    obtain ⟨hbound, hread⟩ := follows_turn hturn
    obtain ⟨hn, hadvances⟩ := ih hturn'
    exact ⟨by omega, hread.trans hadvances⟩

/-- The turns of a loop come to what the loop finds. -/
theorem exists_leads {task : Task} {m : Scanner} {r : Found × Scanner}
    (h : task.finish m = .ok r) : ∃ n, Leads (.goOn task m) n r := by
  rw [finish_eq] at h
  cases hturn : turn task m with
  | error fault =>
    rw [hturn] at h
    cases h
  | ok next =>
    rw [hturn, Fault.ok_bind] at h
    cases next with
    | stop r' =>
      cases h
      exact ⟨1, .goOn hturn (.stop r)⟩
    | goOn task' m' =>
      -- the bound is lower behind the turn
      have hbound := (follows_turn hturn).1
      obtain ⟨n, hlater⟩ := exists_leads h
      exact ⟨n + 1, .goOn hturn hlater⟩
termination_by task.bound m

end Turns

/-- Reading shortens the text. A token, and also a failure, leaves fewer characters than there were,
by at least the length of the token as far as it has been read; and if nothing is found, nothing is
left. A character that was handed back counts as one that is left. -/
structure Shortens (m : Scanner) (found : Found) (m' : Scanner) : Prop where
  unread_lt : found ≠ .nothing → m'.source.unread.length < m.source.unread.length
  size_le : m'.token.size + m'.source.unread.length ≤ m.source.unread.length
  token_eq : ∀ k, found = .token k → k = m'.token
  unread_nil : found = .nothing → m'.source.unread = []

/-- Reading the next token meets no fault. -/
theorem next_isOk (m : Scanner) : ∃ r, m.next = .ok r := by
  have hnext := m.next_eq
  obtain ⟨r, hr⟩ := m.tokenizer.next_isOk
  rw [hr] at hnext
  cases hm : m.next with
  | error fault =>
    rw [hm] at hnext
    cases hnext
  | ok r' => exact ⟨r', rfl⟩

/-- The loops of a tokenizer come to an end when the next token is read, whatever was read before
and whether or not a character has been handed back: at the latest one turn after as many as there
are characters left. They shorten the text. -/
theorem exists_turns (m : Scanner) : ∃ n found m', m.next = .ok (found, m') ∧
    Leads m.firstTurn n (found, m') ∧ n ≤ m.source.unread.length + 1 ∧ Shortens m found m' := by
  obtain ⟨⟨found, m'⟩, hnext⟩ := m.next_isOk
  have hfinish : Task.gap.finish { m with token := m.token.clear } = .ok (found, m') := hnext
  obtain ⟨n, hleads⟩ := exists_leads hfinish
  refine ⟨n, found, m', hnext, hleads, ?_⟩
  cases hleads with
  | goOn hturn hlater =>
    obtain ⟨hn, hadvances⟩ := hlater.advances hturn
    have htotal := hadvances.total
    rw [show m.token.clear.size = 0 from rfl, Nat.zero_add] at htotal
    exact ⟨hn, hadvances.unread, htotal, hadvances.token_eq, hadvances.unread_nil⟩

end YaccGrammar.Scanner
