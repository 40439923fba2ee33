import YaccGrammar.Proofs.Guarded.Reading
import YaccGrammar.Proofs.Text.Progress

/-!
# Reading comes to an end

Three loops read a grammar file, and none of them has a bound: the tokenizer goes on until a token
ends, a token is read again until a state has used it up, and the next token is read until there is
none. Here the last two are told without a bound, upon the turns of the tokenizer, so a reading that
never ends has no rounds.

What moves a reading on is the text, which every token shortens. A state may only put that off, by
asking for the same token again, and it asks once.

## Main statements

- `usesUp_iff`: a token is read again once or not at all, and what comes of it is what `consume`
  says.
- `exists_rounds`: a text is read in one round more than it has tokens.
- `reading_ends_soon`: all three loops end, and how soon.
-/

namespace YaccGrammar.Reading

open Scanner

/-! ## Reading a token again -/

/-- A token is read until a state has used it up, with the number of times that it is read again. -/
inductive UsesUp (t : Token) : State → Nat → State → Prop where
  | done {s s' : State} (h : react t s = .done s') : UsesUp t s 0 s'
  | again {s s' s'' : State} {n : Nat} (h : react t s = .again s') (hlater : UsesUp t s' n s'') :
      UsesUp t s (n + 1) s''

variable {t : Token} {s s' : State} {n : Nat}

/-- A token is read again exactly if the state asks for it, and then the new state does not ask. -/
theorem usesUp_iff : UsesUp t s n s' ↔ n = (react t s).isAgain.toNat ∧ s' = consume t s := by
  constructor
  · rintro (hdone | ⟨hagain, hlater⟩)
    · simp [consume, hdone, Reaction.isAgain]
    · -- a state that was asked twice uses the token up, so a third time is excluded
      obtain ⟨s'', hdone⟩ := done_of_again hagain
      cases hlater with
      | done hdone' => simp [consume, hagain, hdone', Reaction.isAgain, Reaction.state]
      | again hagain' =>
        rw [hdone] at hagain'
        cases hagain'
  · rintro ⟨rfl, rfl⟩
    cases hreact : react t s with
    | done s' =>
      have hconsume : consume t s = s' := by rw [consume, hreact]
      rw [hconsume]
      exact .done hreact
    | again s' =>
      obtain ⟨s'', hdone⟩ := done_of_again hreact
      have hconsume : consume t s = s'' := by simp [consume, hreact, hdone, Reaction.state]
      rw [hconsume]
      exact .again hreact (.done hdone)

/-! ## Reading the next token -/

/-- The rounds in which a text is read: each of them reads the next token, and the last one finds
none. -/
inductive Rounds : Scanner → State → Nat → Run → Prop where
  | nothing {m m' : Scanner} {s : State} {i : Nat} (hturns : Leads m.firstTurn i (.nothing, m')) :
      Rounds m s 1 ⟨[], m'.tokenizer, s, none⟩
  | cut {m m' : Scanner} {s : State} {i : Nat} {what : Text.Unterminated}
      (hturns : Leads m.firstTurn i (.cut what, m')) :
      Rounds m s 1
        ⟨[], m'.tokenizer, s.report m'.token.line (.unterminated what), some what⟩
  | token {m m' : Scanner} {s s' : State} {i j n : Nat} {k : Token} {r : Run}
      (hturns : Leads m.firstTurn i (.token k, m')) (hstate : UsesUp k s j s')
      (hlater : Rounds (Guarded.captureTrailer m' s').1 (Guarded.captureTrailer m' s').2 n r) :
      Rounds m s (n + 1) { r with tokens := k :: r.tokens }

/-- A text is read in one way only. -/
theorem Rounds.unique {m : Scanner} {n' : Nat} {r r' : Run} (h : Rounds m s n r)
    (h' : Rounds m s n' r') : n' = n ∧ r' = r := by
  -- on the first of the two readings: what its turns come to decides the round of the other one
  induction h generalizing n' r' with
  | nothing hturns =>
    cases h' with
    | nothing hturns' =>
      obtain ⟨-, hfound⟩ := hturns.unique hturns'
      cases hfound
      exact ⟨rfl, rfl⟩
    | cut hturns' => cases (hturns.unique hturns').2
    | token hturns' => cases (hturns.unique hturns').2
  | cut hturns =>
    cases h' with
    | nothing hturns' => cases (hturns.unique hturns').2
    | cut hturns' =>
      obtain ⟨-, hfound⟩ := hturns.unique hturns'
      cases hfound
      exact ⟨rfl, rfl⟩
    | token hturns' => cases (hturns.unique hturns').2
  | token hturns hstate _ ih =>
    cases h' with
    | nothing hturns' => cases (hturns.unique hturns').2
    | cut hturns' => cases (hturns.unique hturns').2
    | token hturns' hstate' hlater' =>
      obtain ⟨-, hfound⟩ := hturns.unique hturns'
      cases hfound
      -- what becomes of the token is a function of the token and the state
      obtain ⟨-, rfl⟩ := usesUp_iff.mp hstate
      obtain ⟨-, rfl⟩ := usesUp_iff.mp hstate'
      obtain ⟨rfl, rfl⟩ := ih hlater'
      exact ⟨rfl, rfl⟩

/-- A reading with enough steps reads a text in the rounds that there are: one more than tokens, of
which each is at least one character. -/
theorem exists_rounds (m : Scanner) (s : State) (hleft : m.source.unread.length < n) :
    ∃ r, run n m.tokenizer s = .ok r ∧ Rounds m s (r.tokens.length + 1) r ∧
      r.tokens.length ≤ m.source.unread.length := by
  induction n generalizing m s with
  -- without a step nothing can be read; the bound says that one is left
  | zero => exact absurd hleft (Nat.not_lt_zero _)
  | succ n ih =>
    obtain ⟨i, found, m', hnext, hturns, -, hshortens⟩ := exists_turns m
    have hnext' : m.tokenizer.next = .ok (found, m'.tokenizer) := by
      rw [← m.next_eq, hnext]
      rfl
    rw [run, hnext']
    cases found with
    | nothing => exact ⟨_, rfl, .nothing hturns, Nat.zero_le _⟩
    | cut what => exact ⟨_, rfl, .cut hturns, Nat.zero_le _⟩
    | token k =>
      have hshorter := hshortens.unread_lt (by simp)
      -- taking the trailing code shortens the text further
      have hcapture := Guarded.length_captureTrailer m' (consume k s)
      obtain ⟨r, hrun, hrounds, hcount⟩ :=
        ih (Guarded.captureTrailer m' (consume k s)).1 (Guarded.captureTrailer m' (consume k s)).2
          (by omega)
      refine ⟨{ r with tokens := k :: r.tokens }, ?_,
        .token hturns (usesUp_iff.mpr ⟨rfl, rfl⟩) hrounds, ?_⟩
      · -- the round as the run has it, with the trailing code taken by the bare tokenizer
        change (run n (captureTrailer m'.tokenizer (consume k s)).1
          (captureTrailer m'.tokenizer (consume k s)).2 >>= fun r =>
            Except.ok { r with tokens := k :: r.tokens }) = _
        rw [← Guarded.captureTrailer_tokenizer]
        change (run n (Guarded.captureTrailer m' (consume k s)).1.tokenizer _ >>= _) = _
        rw [hrun]
        rfl
      · rw [List.length_cons]
        omega

/-- Reading always comes to an end. Whatever a tokenizer has read before, and whether or not a
character was handed back to it, its loops end when it is asked for the next token: they come to one
thing, in at most one turn more than characters are left, and a token or a failure leaves fewer
characters, by at least the length of the token. Whatever a state has read, it reads a token again
at most once. So every text is read, in one round more than it has tokens and in at most one round
more than it has characters, and what is read in these rounds is what reading a file yields. -/
theorem reading_ends_soon :
    (∀ m : Scanner, ∃ n found m', m.next = .ok (found, m') ∧ Shortens m found m' ∧
      n ≤ m.source.unread.length + 1 ∧
      ∀ n' r, Leads m.firstTurn n' r ↔ n' = n ∧ r = (found, m')) ∧
    (∀ (t : Token) (s : State), ∃ n ≤ 1, ∀ n' s', UsesUp t s n' s' ↔ n' = n ∧ s' = consume t s) ∧
    ∀ file text, ∃ r, readText file text = .ok r ∧ parse file text = .ok r.outcome ∧
      r.tokens.length + 1 ≤ text.toList.length + 1 ∧
      ∀ n r', Rounds (.ofString text) (.initial file) n r' ↔ n = r.tokens.length + 1 ∧ r' = r := by
  refine ⟨fun m => ?_, fun t s => ⟨_, Bool.toNat_le _, fun n' s' => usesUp_iff⟩,
    fun file text => ?_⟩
  · obtain ⟨n, found, m', hnext, hturns, hn, hshortens⟩ := exists_turns m
    refine ⟨n, found, m', hnext, hshortens, hn, fun n' r => ⟨hturns.unique, ?_⟩⟩
    rintro ⟨rfl, rfl⟩
    exact hturns
  · obtain ⟨r, hread, hrounds, hcount⟩ :=
      exists_rounds (.ofString text) (.initial file) (Nat.lt_succ_self _)
    have hparse : parse file text = .ok r.outcome := by
      rw [parse, readText]
      exact congrArg (Except.map Run.outcome) hread
    refine ⟨r, hread, hparse, Nat.succ_le_succ hcount, fun n r' => ⟨hrounds.unique, ?_⟩⟩
    rintro ⟨rfl, rfl⟩
    exact hrounds

end YaccGrammar.Reading
