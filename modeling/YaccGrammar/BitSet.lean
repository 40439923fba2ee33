/-!
# Bit sets

Finite sets of small numbers, kept as 64-bit blocks. A set keeps the blocks it has: clearing
empties them, insertion and union only add to them. Two sets are equal when their blocks are, so a
set with an empty block at its end differs from the same set without it.

A `Walk` visits the members in ascending order, one at a time.
-/

namespace YaccGrammar

/-- A finite set of numbers. -/
structure BitSet where
  /-- Block `i` holds the numbers from `64 * i` on. -/
  blocks : List (BitVec 64) := []
  deriving DecidableEq

namespace BitSet

/-- The set without members and without blocks. -/
def empty : BitSet := {}

/-- The empty set with room for the numbers below `n`. -/
def withCapacity (n : Nat) : BitSet := ⟨List.replicate ((n + 63) / 64) 0⟩

/-- Removes all members and keeps the blocks. -/
def clear (s : BitSet) : BitSet := ⟨s.blocks.map fun _ => 0⟩

/-- Membership. -/
def contains (s : BitSet) (n : Nat) : Bool :=
  match s.blocks[n / 64]? with
  | some b => b.getLsbD (n % 64)
  | none => false

/-- The blocks, with empty ones added until there are at least `k`. -/
def padded (s : BitSet) (k : Nat) : List (BitVec 64) :=
  s.blocks ++ List.replicate (k - s.blocks.length) 0

/-- The set with `n`, and whether `n` is new. -/
def insert (n : Nat) (s : BitSet) : Bool × BitSet :=
  let bit := BitVec.twoPow 64 (n % 64)
  let blocks := s.padded (n / 64 + 1)
  -- the bit is looked up before it is set
  let isNew := blocks[n / 64]?.any fun b => b &&& bit = 0
  (isNew, ⟨blocks.modify (n / 64) (· ||| bit)⟩)

/-- The set of the given numbers. -/
def ofList (l : List Nat) : BitSet := l.foldl (fun s n => (s.insert n).2) empty

/-- Blocks of a union. -/
def unionBlocks : List (BitVec 64) → List (BitVec 64) → List (BitVec 64)
  | s, [] => s
  | [], t => t
  | a :: s, b :: t => (a ||| b) :: unionBlocks s t

/-- Whether the second list of blocks has a bit that the first one lacks. -/
def addsTo : List (BitVec 64) → List (BitVec 64) → Bool
  | _, [] => false
  | [], b :: t => b ≠ 0 || addsTo [] t
  | a :: s, b :: t => (a ||| b) ≠ a || addsTo s t

/-- The union, and whether it has more members than `s`. -/
def union (s t : BitSet) : Bool × BitSet :=
  (addsTo s.blocks t.blocks, ⟨unionBlocks s.blocks t.blocks⟩)

/-- Number of members of a block. -/
def blockSize (b : BitVec 64) : Nat := (List.range 64).countP (b.getLsbD ·)

/-- Number of members. -/
def size (s : BitSet) : Nat := s.blocks.foldr (fun b n => blockSize b + n) 0

/-- Members of a list of blocks of which the first holds the numbers from `base` on. -/
def members : (base : Nat) → List (BitVec 64) → List Nat
  | _, [] => []
  | base, b :: t =>
    ((List.range 64).filter (b.getLsbD ·)).map (base + ·) ++ members (base + 64) t

/-- The members in ascending order. -/
def toList (s : BitSet) : List Nat := members 0 s.blocks

/-- The members between braces, separated by commas. -/
def render (s : BitSet) : String :=
  "\x7b" ++ ", ".intercalate (s.toList.map toString) ++ "\x7d"

/-- A visit of the members in ascending order that has passed the numbers below `position`. -/
structure Walk where
  set : BitSet
  position : Nat := 0

/-- Starts a visit. -/
def walk (s : BitSet) : Walk := { set := s }

/-- The next member; `none` at the end, and again `none` from then on. -/
def Walk.next (w : Walk) : Option Nat × Walk :=
  let ahead := members (64 * (w.position / 64)) (w.set.blocks.drop (w.position / 64))
  match ahead.find? (w.position ≤ ·) with
  | some n => (some n, { w with position := n + 1 })
  | none => (none, w)

/-- The first `k` members that a visit meets. -/
def Walk.take : Nat → Walk → List Nat
  | 0, _ => []
  | k + 1, w =>
    match w.next with
    | (some n, w) => n :: w.take k
    | (none, _) => []

end BitSet

end YaccGrammar
