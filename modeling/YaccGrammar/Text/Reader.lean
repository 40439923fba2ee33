import YaccGrammar.Fault

/-!
# Readers

A source of characters with room for one character that was looked at and handed back. Its view is
`unread`, the characters that are still to come.

## Main statements

- `unread_pushBack`: a character handed back is the next one to be read.
-/

namespace YaccGrammar

/-- Characters to be read, the first of which may have been handed back. -/
structure Reader where
  /-- The character that was handed back and not read since. -/
  pending : Option Char := none
  /-- The characters behind it. -/
  rest : List Char := []
  deriving DecidableEq

namespace Reader

/-- A reader at the start of a text. -/
def ofString (text : String) : Reader := ⟨none, text.toList⟩

/-- All characters that are still to come. -/
def unread (r : Reader) : List Char := r.pending.toList ++ r.rest

/-- Reads one character; `none` at the end, and again `none` from then on. -/
def next : Reader → Option Char × Reader
  | ⟨some c, s⟩ => (some c, ⟨none, s⟩)
  | ⟨none, c :: s⟩ => (some c, ⟨none, s⟩)
  | ⟨none, []⟩ => (none, ⟨none, []⟩)

/-- Hands a character back; there is room for one. -/
def pushBack (c : Char) : Reader → Except Fault Reader
  | ⟨none, s⟩ => .ok ⟨some c, s⟩
  | ⟨some _, _⟩ => .error .secondPushBack

@[simp] theorem unread_ofString (text : String) : (ofString text).unread = text.toList := rfl

@[simp] theorem unread_none (s : List Char) : (Reader.mk none s).unread = s := rfl

@[simp] theorem unread_some (c : Char) (s : List Char) :
    (Reader.mk (some c) s).unread = c :: s := rfl

/-- A character that is handed back is the next one to be read. -/
theorem unread_pushBack {c : Char} {r r' : Reader} (h : pushBack c r = .ok r') :
    r'.unread = c :: r.unread := by
  obtain ⟨_ | d, s⟩ := r
  · cases h
    rfl
  · cases h

end Reader

end YaccGrammar
