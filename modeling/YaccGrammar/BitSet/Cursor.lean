import YaccGrammar.BitSet

/-!
# Cursors

A visit of the members of a bit set, block by block. A cursor knows the number of its block and how
many bits of that block it has passed. It masks those bits and counts the zeros below the lowest bit
that is left; a block without such a bit is left behind. Like a `Walk`, it meets the members in
ascending order, and nothing from then on.
-/

namespace YaccGrammar.BitSet

/-- Number of zeros below the lowest bit of a block; 64 for the empty block. -/
def trailingZeros (b : BitVec 64) : Nat := ((List.range 64).find? (b.getLsbD ·)).getD 64

/-- A place among the blocks of a set. -/
structure Cursor where
  blocks : List (BitVec 64)
  /-- Number of bits of the block that have been passed. -/
  bit : Nat := 0
  /-- Number of the block. -/
  index : Nat := 0
  deriving DecidableEq

/-- A cursor in front of all members. -/
def cursor (s : BitSet) : Cursor := { blocks := s.blocks }

namespace Cursor

/-- The next member in the given blocks, the first of which is that of the cursor. -/
def scan : List (BitVec 64) → Cursor → Option Nat × Cursor
  | [], c => (none, c)
  | b :: later, c =>
    let low := trailingZeros (b &&& (BitVec.allOnes 64 <<< c.bit))
    -- a block whose last bit has been met is passed, and nothing is shifted out of it
    if c.bit < 64 && low < 64 then (some (64 * c.index + low), { c with bit := low + 1 })
    else scan later { c with bit := 0, index := c.index + 1 }

/-- The next member; `none` at the end, and again `none` from then on. -/
def next (c : Cursor) : Option Nat × Cursor := scan (c.blocks.drop c.index) c

end Cursor

end YaccGrammar.BitSet
