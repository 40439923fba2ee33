import YaccGrammar.Guarded.Number
import YaccGrammar.Token.Tokenizer

/-!
# Reading character by character

How a tokenizer works: it takes one character after the other from its reader, with one loop for
each kind of comment and of token. The loops share the reader, the token that is being read, and the
line. Where a word or a single slash ends shows in the character behind it, which is handed back.

## Main statement

- `Reader.length_of_next`: every character that is read leaves one character less.
-/

namespace YaccGrammar

open Text

namespace Reader

/-- At the end there is nothing to read. -/
theorem next_of_nil {r : Reader} (h : r.unread = []) : r.next = (none, ⟨none, []⟩) := by
  obtain ⟨_ | c, _ | ⟨d, s⟩⟩ := r
  · rfl
  all_goals cases h

/-- The first unread character is read, whether it was handed back or not. -/
theorem next_of_cons {r : Reader} {c : Char} {s : List Char} (h : r.unread = c :: s) :
    r.next = (some c, ⟨none, s⟩) := by
  obtain ⟨_ | c, _ | ⟨d, s⟩⟩ := r
  · cases h
  all_goals
    cases h
    rfl

/-- Nothing is read at the end only. -/
theorem eq_of_next_none {r r' : Reader} (h : r.next = (none, r')) :
    r.unread = [] ∧ r' = ⟨none, []⟩ := by
  cases hr : r.unread with
  | nil =>
    rw [next_of_nil hr] at h
    cases h
    exact ⟨rfl, rfl⟩
  | cons d s =>
    rw [next_of_cons hr] at h
    cases h

/-- What is read was the first unread character, and the reader holds none back. -/
theorem eq_of_next_some {r r' : Reader} {c : Char} (h : r.next = (some c, r')) :
    ∃ s, r.unread = c :: s ∧ r' = ⟨none, s⟩ := by
  cases hr : r.unread with
  | nil =>
    rw [next_of_nil hr] at h
    cases h
  | cons d s =>
    rw [next_of_cons hr] at h
    cases h
    exact ⟨s, rfl, rfl⟩

/-- Reading a character leaves one character less. -/
theorem length_of_next {r r' : Reader} {c : Char} (h : r.next = (some c, r')) :
    r'.unread.length + 1 = r.unread.length := by
  obtain ⟨s, hr, rfl⟩ := eq_of_next_some h
  rw [hr]
  rfl

/-- A character that is handed back is one character more. -/
theorem length_of_pushBack {r r' : Reader} {c : Char} (h : pushBack c r = .ok r') :
    r'.unread.length = r.unread.length + 1 := by
  rw [unread_pushBack h]
  rfl

end Reader

/-- A tokenizer at work. -/
structure Scanner where
  source : Reader
  /-- The token that is being read. Its line is that of the last token, comment or failed
  construct. -/
  token : Token := {}
  /-- Line of the next unread character. -/
  line : Nat := 1
  deriving DecidableEq

namespace Scanner

/-- What was opened and not closed, if anything, and where a loop stopped. -/
abbrev Stop := Option Unterminated × Scanner

/-- Takes characters: counts their line breaks, and where told so keeps them in the token. -/
def take (keep : Bool) (s : List Char) (source : Reader) (m : Scanner) : Scanner where
  source := source
  token := if keep then { m.token with text := m.token.text ++ String.ofList s } else m.token
  line := m.line + newlines s

@[simp] theorem source_take (keep : Bool) (s : List Char) (source : Reader) (m : Scanner) :
    (m.take keep s source).source = source := rfl

/-! ## Comments -/

/-- A comment up to the end of its line. -/
def skipLine (keep : Bool) (m : Scanner) : Scanner :=
  match _h : m.source.next with
  | (none, source) => m.take keep [] source
  | (some c, source) =>
    if c = '\n' then m.take keep [c] source else skipLine keep (m.take keep [c] source)
  termination_by m.source.unread.length
  decreasing_by
    have := Reader.length_of_next _h
    rw [source_take]
    omega

/-- A comment up to `*/`, of which `last` is the character that was read last. -/
def skipBlock (keep : Bool) (last : Option Char) (m : Scanner) : Stop :=
  match _h : m.source.next with
  | (none, source) => (some .comment, m.take keep [] source)
  | (some c, source) =>
    if last = some '*' ∧ c = '/' then (none, m.take keep [c] source)
    else skipBlock keep (some c) (m.take keep [c] source)
  termination_by m.source.unread.length
  decreasing_by
    have := Reader.length_of_next _h
    rw [source_take]
    omega

/-- Whether a character opens a comment behind a slash. -/
def opensComment (c : Char) : Bool := c = '/' || c = '*'

/-- A comment behind its opening. -/
def skipComment (keep : Bool) (opener : Char) (m : Scanner) : Stop :=
  if opener = '/' then (none, skipLine keep m) else skipBlock keep none m

/-! ## Literals, tags and words -/

/-- A literal up to its closing quote; `escaped` tells whether a backslash has just been read. -/
def readQuoted (quote : Char) (escaped : Bool) (m : Scanner) : Stop :=
  match _h : m.source.next with
  | (none, source) => (some .literal, m.take true [] source)
  | (some c, source) =>
    if escaped then readQuoted quote false (m.take true [c] source)
    else if c = '\\' then readQuoted quote true (m.take true [c] source)
    else if c = quote then (none, m.take true [c] source)
    else readQuoted quote false (m.take true [c] source)
  termination_by m.source.unread.length
  decreasing_by
    all_goals
      have := Reader.length_of_next _h
      rw [source_take]
      omega

/-- A type tag up to `>`. -/
def readTag (m : Scanner) : Stop :=
  match _h : m.source.next with
  | (none, source) => (some .tag, m.take true [] source)
  | (some c, source) =>
    if c = '>' then (none, m.take true [c] source) else readTag (m.take true [c] source)
  termination_by m.source.unread.length
  decreasing_by
    have := Reader.length_of_next _h
    rw [source_take]
    omega

/-- A word; the character behind it is handed back. -/
def readWord (m : Scanner) : Except Fault Scanner :=
  match _h : m.source.next with
  | (none, source) => .ok (m.take true [] source)
  | (some c, source) =>
    if Letter.isWordChar c then readWord (m.take true [c] source)
    else (Reader.pushBack c source).map (m.take true [])
  termination_by m.source.unread.length
  decreasing_by
    have := Reader.length_of_next _h
    rw [source_take]
    omega

/-! ## Code -/

/-- A comment up to the end of its line leaves no more than there was. -/
theorem length_skipLine (keep : Bool) (m : Scanner) :
    (skipLine keep m).source.unread.length ≤ m.source.unread.length := by
  fun_induction skipLine keep m with
  | case1 m source h =>
    -- the end of the text
    obtain ⟨-, rfl⟩ := Reader.eq_of_next_none h
    exact Nat.zero_le _
  | case2 m source h =>
    -- the line break
    have := Reader.length_of_next h
    rw [source_take]
    omega
  | case3 m c source h hc ih =>
    have := Reader.length_of_next h
    rw [source_take] at ih
    omega

/-- A comment up to its mark leaves no more than there was. -/
theorem length_skipBlock (keep : Bool) (last : Option Char) (m : Scanner) :
    (skipBlock keep last m).2.source.unread.length ≤ m.source.unread.length := by
  fun_induction skipBlock keep last m with
  | case1 last m source h =>
    obtain ⟨-, rfl⟩ := Reader.eq_of_next_none h
    exact Nat.zero_le _
  | case2 last m c source h hc =>
    have := Reader.length_of_next h
    rw [source_take]
    omega
  | case3 last m c source h hc ih =>
    have := Reader.length_of_next h
    rw [source_take] at ih
    omega

/-- A comment leaves no more than there was. -/
theorem length_of_skipComment {keep : Bool} {opener : Char} {m m' : Scanner}
    {what : Option Unterminated} (h : skipComment keep opener m = (what, m')) :
    m'.source.unread.length ≤ m.source.unread.length := by
  unfold skipComment at h
  split at h
  · cases h
    exact length_skipLine keep m
  · have hrest := length_skipBlock keep none m
    rw [h] at hrest
    exact hrest

/-- A literal leaves no more than there was. -/
theorem length_readQuoted (quote : Char) (escaped : Bool) (m : Scanner) :
    (readQuoted quote escaped m).2.source.unread.length ≤ m.source.unread.length := by
  fun_induction readQuoted quote escaped m with
  | case1 escaped m source h =>
    -- the end of the text
    obtain ⟨-, rfl⟩ := Reader.eq_of_next_none h
    exact Nat.zero_le _
  | case2 m c source h ih =>
    -- the character behind a backslash
    have := Reader.length_of_next h
    rw [source_take] at ih
    omega
  | case3 escaped m source hescaped h ih =>
    have := Reader.length_of_next h
    rw [source_take] at ih
    omega
  | case4 escaped m source hescaped h =>
    -- the closing quote
    have := Reader.length_of_next h
    rw [source_take]
    omega
  | case5 escaped m c source h hescaped hc hquote ih =>
    have := Reader.length_of_next h
    rw [source_take] at ih
    omega

/-- A code block up to the brace that closes it, where `level` braces are open. Braces in literals
and comments do not count. -/
def readCode (level : Nat) (m : Scanner) : Except Fault Stop :=
  match _hc : m.source.next with
  | (none, source) => .ok (some .code, m.take true [] source)
  | (some c, source) =>
    if c = '{' then readCode (level + 1) (m.take true [c] source)
    else if c = '}' then
      match Guarded.lower level with
      | .error fault => .error fault
      | .ok 0 => .ok (none, m.take true [c] source)
      | .ok (left + 1) => readCode (left + 1) (m.take true [c] source)
    else if c = '/' then
      match _hd : source.next with
      | (none, source) => .ok (some .code, m.take true [c] source)
      | (some d, source) =>
        if opensComment d then
          match _hcomment : skipComment true d (m.take true [c, d] source) with
          | (some what, m') => .ok (some what, m')
          | (none, m') => readCode level m'
        else
          match _hback : Reader.pushBack d source with
          | .error fault => .error fault
          | .ok source => readCode level (m.take true [c] source)
    else if isQuote c then
      match _hquoted : readQuoted c false (m.take true [c] source) with
      | (some _, m') => .ok (some .code, m')
      | (none, m') => readCode level m'
    else readCode level (m.take true [c] source)
  termination_by m.source.unread.length
  decreasing_by
    all_goals
      have := Reader.length_of_next _hc
    · rw [source_take]
      omega
    · rw [source_take]
      omega
    · have := Reader.length_of_next _hd
      have hrest := length_of_skipComment _hcomment
      rw [source_take] at hrest
      omega
    · have := Reader.length_of_next _hd
      have := Reader.length_of_pushBack _hback
      rw [source_take]
      omega
    · have hrest := length_readQuoted c false (m.take true [c] source)
      rw [_hquoted] at hrest
      change m'.source.unread.length ≤ source.unread.length at hrest
      omega
    · rw [source_take]
      omega

/-! ## Tokens -/

/-- The rest of the token that begins with `c`. -/
def readToken (c : Char) (m : Scanner) : Except Fault Stop :=
  if isQuote c then .ok (readQuoted c false m)
  else if c = '<' then .ok (readTag m)
  else if c = '{' then readCode 1 m
  else if Letter.isWordChar c then (readWord m).map fun m => (none, m)
  else .ok (none, m)

/-- The token that was read, or what it leaves open. -/
def Stop.found : Stop → Tokenizer.Found × Scanner
  | (none, m) => (.token m.token, m)
  | (some what, m) => (.cut what, m)

/-- A token or a comment begins on this line. -/
def start (source : Reader) (m : Scanner) : Scanner :=
  { m with source, token := { m.token with line := m.line } }

/-- Skips gaps, and reads the token behind them. -/
def readOn (m : Scanner) : Except Fault (Tokenizer.Found × Scanner) :=
  match _hc : m.source.next with
  | (none, source) => .ok (.nothing, m.take false [] source)
  | (some c, source) =>
    if isBlank c then readOn (m.take false [c] source)
    else if c = '/' then
      match _hd : source.next with
      | (none, source) => (readToken c ((m.start source).take true [c] source)).map Stop.found
      | (some d, source) =>
        if opensComment d then
          match _hcomment : skipComment false d (m.start source) with
          | (some what, m') => .ok (.cut what, m')
          | (none, m') => readOn m'
        else
          match Reader.pushBack d source with
          | .error fault => .error fault
          | .ok source => (readToken c ((m.start source).take true [c] source)).map Stop.found
    else (readToken c ((m.start source).take true [c] source)).map Stop.found
  termination_by m.source.unread.length
  decreasing_by
    all_goals
      have := Reader.length_of_next _hc
    · rw [source_take]
      omega
    · have := Reader.length_of_next _hd
      have hrest := length_of_skipComment _hcomment
      change m'.source.unread.length ≤ source.unread.length at hrest
      omega

/-- Reads the next token. -/
def next (m : Scanner) : Except Fault (Tokenizer.Found × Scanner) :=
  readOn { m with token := m.token.clear }

/-- Takes everything that is left, as it stands. -/
def takeRest (m : Scanner) : String × Scanner :=
  (String.ofList m.source.unread, m.take false m.source.unread ⟨none, []⟩)

/-- A scanner at the start of a text. -/
def ofString (text : String) : Scanner := { source := .ofString text }

/-- The tokenizer between two calls. -/
def tokenizer (m : Scanner) : Tokenizer := ⟨m.source, m.line, m.token.line⟩

end Scanner

end YaccGrammar
