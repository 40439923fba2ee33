import YaccGrammar.Proofs.Text.Scanner

/-!
# Turns of the tokenizer

The loops of a tokenizer have no bound: each of them goes on until what it reads is closed or the
text ends. One turn of a loop reads a character, or two at a slash, and tells which loop has the
next turn. `Leads` is what such turns come to, told without a bound, so loops that never end lead
to nothing.

## Main statements

- `Leads.unique`: turns come to one thing only.
- `finish_eq`: a turn leaves to be found what there was to be found.
-/

namespace YaccGrammar.Scanner

open Text Tokenizer

/-- The loops of a tokenizer. A comment or a literal may stand in code; it is told then how many
braces are open there. -/
inductive Task where
  /-- The gap in front of a token. -/
  | gap
  /-- A comment up to the end of its line. -/
  | line (inside : Option Nat)
  /-- A comment up to `*/`, of which `last` is the character that was read last. -/
  | block (last : Option Char) (inside : Option Nat)
  /-- A literal up to its closing quote. -/
  | literal (quote : Char) (escaped : Bool) (inside : Option Nat)
  /-- A type tag up to `>`. -/
  | tag
  /-- A code block, of which `level` braces are open. -/
  | code (level : Nat)
  /-- A word. -/
  | word
  deriving DecidableEq

/-- What a turn comes to. -/
inductive Turn where
  /-- A loop has another turn. -/
  | goOn (task : Task) (m : Scanner)
  /-- Something was found, or nothing is left. -/
  | stop (r : Found × Scanner)

/-- Where a comment has been passed over. -/
def behindComment (inside : Option Nat) : Stop → Turn
  | (some what, m) => .stop (.cut what, m)
  | (none, m) => .goOn (inside.elim .gap .code) m

/-- Where a literal has been read. If one in code is not closed, nor is the code. -/
def behindLiteral : Option Nat → Stop → Turn
  | none, r => .stop r.found
  | some _, (some _, m) => .stop (.cut .code, m)
  | some level, (none, m) => .goOn (.code level) m

/-- The loop that passes over a comment. -/
def comment (opener : Char) (inside : Option Nat) : Task :=
  if opener = '/' then .line inside else .block none inside

/-- What follows the first character of a token. -/
def behindFirst (c : Char) (m : Scanner) : Turn :=
  if isQuote c then .goOn (.literal c false none) m
  else if c = '<' then .goOn .tag m
  else if c = '{' then .goOn (.code 1) m
  else if Letter.isWordChar c then .goOn .word m
  else .stop (.token m.token, m)

/-- One turn of a loop. -/
def turn : Task → Scanner → Except Fault Turn
  | .gap, m =>
    match m.source.next with
    | (none, source) => .ok (.stop (.nothing, m.take false [] source))
    | (some c, source) =>
      if isBlank c then .ok (.goOn .gap (m.take false [c] source))
      else if c = '/' then
        match source.next with
        | (none, source) => .ok (behindFirst c ((m.start source).take true [c] source))
        | (some d, source) =>
          if opensComment d then .ok (.goOn (comment d none) (m.start source))
          else (Reader.pushBack d source).map fun source =>
            behindFirst c ((m.start source).take true [c] source)
      else .ok (behindFirst c ((m.start source).take true [c] source))
  | .line inside, m =>
    match m.source.next with
    | (none, source) => .ok (behindComment inside (none, m.take inside.isSome [] source))
    | (some c, source) =>
      if c = '\n' then .ok (behindComment inside (none, m.take inside.isSome [c] source))
      else .ok (.goOn (.line inside) (m.take inside.isSome [c] source))
  | .block last inside, m =>
    match m.source.next with
    | (none, source) => .ok (behindComment inside (some .comment, m.take inside.isSome [] source))
    | (some c, source) =>
      if last = some '*' ∧ c = '/' then
        .ok (behindComment inside (none, m.take inside.isSome [c] source))
      else .ok (.goOn (.block (some c) inside) (m.take inside.isSome [c] source))
  | .literal quote escaped inside, m =>
    match m.source.next with
    | (none, source) => .ok (behindLiteral inside (some .literal, m.take true [] source))
    | (some c, source) =>
      if escaped then .ok (.goOn (.literal quote false inside) (m.take true [c] source))
      else if c = '\\' then .ok (.goOn (.literal quote true inside) (m.take true [c] source))
      else if c = quote then .ok (behindLiteral inside (none, m.take true [c] source))
      else .ok (.goOn (.literal quote false inside) (m.take true [c] source))
  | .tag, m =>
    match m.source.next with
    | (none, source) => .ok (.stop (.cut .tag, m.take true [] source))
    | (some c, source) =>
      if c = '>' then .ok (.stop (Stop.found (none, m.take true [c] source)))
      else .ok (.goOn .tag (m.take true [c] source))
  | .code level, m =>
    match m.source.next with
    | (none, source) => .ok (.stop (.cut .code, m.take true [] source))
    | (some c, source) =>
      if c = '{' then .ok (.goOn (.code (level + 1)) (m.take true [c] source))
      else if c = '}' then
        (Guarded.lower level).map fun
          | 0 => .stop (Stop.found (none, m.take true [c] source))
          | left + 1 => .goOn (.code (left + 1)) (m.take true [c] source)
      else if c = '/' then
        match source.next with
        | (none, source) => .ok (.stop (.cut .code, m.take true [c] source))
        | (some d, source) =>
          if opensComment d then
            .ok (.goOn (comment d (some level)) (m.take true [c, d] source))
          else (Reader.pushBack d source).map fun source =>
            .goOn (.code level) (m.take true [c] source)
      else if isQuote c then
        .ok (.goOn (.literal c false (some level)) (m.take true [c] source))
      else .ok (.goOn (.code level) (m.take true [c] source))
  | .word, m =>
    match m.source.next with
    | (none, source) => .ok (.stop (Stop.found (none, m.take true [] source)))
    | (some c, source) =>
      if Letter.isWordChar c then .ok (.goOn .word (m.take true [c] source))
      else (Reader.pushBack c source).map fun source =>
        .stop (Stop.found (none, m.take true [] source))

/-- What turns come to, one after the other, and how many they are. -/
inductive Leads : Turn → Nat → Found × Scanner → Prop where
  | stop (r : Found × Scanner) : Leads (.stop r) 0 r
  | goOn {task : Task} {m : Scanner} {next : Turn} {n : Nat} {r : Found × Scanner}
      (hturn : turn task m = .ok next) (hlater : Leads next n r) : Leads (.goOn task m) (n + 1) r

/-- The first turn for the next token. -/
def firstTurn (m : Scanner) : Turn := .goOn .gap { m with token := m.token.clear }

/-- Turns come to one thing only. -/
theorem Leads.unique {next : Turn} {n n' : Nat} {r r' : Found × Scanner} (h : Leads next n r)
    (h' : Leads next n' r') : n' = n ∧ r' = r := by
  induction h generalizing n' with
  | stop r =>
    cases h'
    exact ⟨rfl, rfl⟩
  | goOn hturn _ ih =>
    cases h' with
    | goOn hturn' hlater' =>
      rw [hturn, Except.ok.injEq] at hturn'
      subst hturn'
      obtain ⟨rfl, rfl⟩ := ih hlater'
      exact ⟨rfl, rfl⟩

/-! ## What the loops find -/

/-- What is found behind a comment. -/
def finishComment (inside : Option Nat) : Stop → Except Fault (Found × Scanner)
  | (some what, m) => .ok (.cut what, m)
  | (none, m) =>
    match inside with
    | none => readOn m
    | some level => (readCode level m).map Stop.found

/-- What is found with a literal. -/
def finishLiteral : Option Nat → Stop → Except Fault (Found × Scanner)
  | none, r => .ok r.found
  | some _, (some _, m) => .ok (.cut .code, m)
  | some level, (none, m) => (readCode level m).map Stop.found

/-- What the loop finds, and the loop in which it runs. -/
def Task.finish : Task → Scanner → Except Fault (Found × Scanner)
  | .gap, m => readOn m
  | .line inside, m => finishComment inside (none, skipLine inside.isSome m)
  | .block last inside, m => finishComment inside (skipBlock inside.isSome last m)
  | .literal quote escaped inside, m => finishLiteral inside (readQuoted quote escaped m)
  | .tag, m => .ok (readTag m).found
  | .code level, m => (readCode level m).map Stop.found
  | .word, m => (readWord m).map fun m => Stop.found (none, m)

/-- What there is to be found behind a turn. -/
def Turn.finish : Turn → Except Fault (Found × Scanner)
  | .goOn task m => task.finish m
  | .stop r => .ok r

/-- What is found behind a comment is found where it was read from. -/
theorem finish_behindComment (inside : Option Nat) (r : Stop) :
    (behindComment inside r).finish = finishComment inside r := by
  obtain ⟨_ | what, m⟩ := r
  · cases inside <;> rfl
  · rfl

theorem finish_behindLiteral (inside : Option Nat) (r : Stop) :
    (behindLiteral inside r).finish = finishLiteral inside r := by
  obtain ⟨_ | what, m⟩ := r <;> cases inside <;> rfl

/-- A loop over a comment finds what reading all of it does. -/
theorem finish_comment (opener : Char) (inside : Option Nat) (m : Scanner) :
    (comment opener inside).finish m =
      finishComment inside (skipComment inside.isSome opener m) := by
  unfold comment skipComment
  split <;> rfl

/-- A loop behind a first character finds what reading the token does. -/
theorem finish_behindFirst (c : Char) (m : Scanner) :
    (behindFirst c m).finish = (readToken c m).map Stop.found := by
  unfold behindFirst readToken
  split
  · rfl
  split
  · rfl
  split
  · rfl
  split
  · simp only [Turn.finish, Task.finish]
    cases readWord m <;> rfl
  · rfl

/-- A turn in a gap leaves to be found what there was to be found; and so for each loop. -/
theorem finish_gap (m : Scanner) : Task.gap.finish m = turn .gap m >>= Turn.finish := by
  rw [Task.finish, readOn]
  split
  · next h => simp [turn, h, Turn.finish]
  · next c source h =>
    simp only [turn, h]
    split
    · rfl
    -- a slash may begin a comment
    split
    · split
      · next h' => simp [h', finish_behindFirst]
      · next d source' h' =>
        simp only [h']
        split
        · rw [Fault.ok_bind, Turn.finish, finish_comment]
          split
          · next hcomment => simp [hcomment, finishComment]
          · next hcomment => simp [hcomment, finishComment]
        · split
          · next hback => simp [hback, Except.map]
          · next hback => simp [hback, finish_behindFirst]
    · simp [finish_behindFirst]

theorem finish_line (inside : Option Nat) (m : Scanner) :
    (Task.line inside).finish m = turn (.line inside) m >>= Turn.finish := by
  rw [Task.finish, skipLine]
  split
  · next h => simp [turn, h, finish_behindComment]
  · next h =>
    simp only [turn, h]
    split
    · exact (finish_behindComment inside _).symm
    · rfl

theorem finish_block (last : Option Char) (inside : Option Nat) (m : Scanner) :
    (Task.block last inside).finish m = turn (.block last inside) m >>= Turn.finish := by
  rw [Task.finish, skipBlock]
  split
  · next h => simp [turn, h, finish_behindComment]
  · next h =>
    simp only [turn, h]
    split
    · exact (finish_behindComment inside _).symm
    · rfl

theorem finish_literal (quote : Char) (escaped : Bool) (inside : Option Nat) (m : Scanner) :
    (Task.literal quote escaped inside).finish m =
      turn (.literal quote escaped inside) m >>= Turn.finish := by
  rw [Task.finish, readQuoted]
  split
  · next h => simp [turn, h, finish_behindLiteral]
  · next h =>
    simp only [turn, h]
    split
    · rfl
    split
    · rfl
    split
    · exact (finish_behindLiteral inside _).symm
    · rfl

theorem finish_tag (m : Scanner) : Task.tag.finish m = turn .tag m >>= Turn.finish := by
  rw [Task.finish, readTag]
  split
  · next h => simp [turn, h, Turn.finish, Stop.found]
  · next h =>
    simp only [turn, h]
    split <;> rfl

theorem finish_code (level : Nat) (m : Scanner) :
    (Task.code level).finish m = turn (.code level) m >>= Turn.finish := by
  rw [Task.finish, readCode]
  split
  · next h => simp [turn, h, Turn.finish, Stop.found]
  · next h =>
    simp only [turn, h]
    split
    · rfl
    -- a closing brace
    split
    · split
      · next hlower => simp [hlower, Except.map]
      · next hlower => simp [hlower, Turn.finish]
      · next hlower => simp [hlower, Turn.finish, Task.finish]
    -- a slash
    split
    · split
      · next h' => simp [h', Turn.finish, Stop.found]
      · next h' =>
        simp only [h']
        split
        · rw [Fault.ok_bind, Turn.finish, finish_comment]
          split
          · next hcomment => simp [hcomment, finishComment, Stop.found]
          · next hcomment => simp [hcomment, finishComment]
        · split
          · next hback => simp [hback, Except.map]
          · next hback => simp [hback, Turn.finish, Task.finish]
    -- a quotation mark
    split
    · rw [Fault.ok_bind, Turn.finish, Task.finish]
      split
      · next hquoted => simp [hquoted, finishLiteral, Stop.found]
      · next hquoted => simp [hquoted, finishLiteral]
    · rfl

theorem finish_word (m : Scanner) : Task.word.finish m = turn .word m >>= Turn.finish := by
  rw [Task.finish, readWord]
  split
  · next h => simp [turn, h, Turn.finish]
  · next c source h =>
    simp only [turn, h]
    split
    · rfl
    · cases Reader.pushBack c source <;> rfl

/-- A turn leaves to be found what there was to be found. -/
theorem finish_eq (task : Task) (m : Scanner) : task.finish m = turn task m >>= Turn.finish := by
  cases task with
  | gap => exact finish_gap m
  | line inside => exact finish_line inside m
  | block last inside => exact finish_block last inside m
  | literal quote escaped inside => exact finish_literal quote escaped inside m
  | tag => exact finish_tag m
  | code level => exact finish_code level m
  | word => exact finish_word m

end YaccGrammar.Scanner
