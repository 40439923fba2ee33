import Mathlib.Data.List.Basic
import YaccGrammar.BitSet

/-!
# Bit sets as sets of numbers

Membership in a bit set under its operations, and the list of its members. A block that a set does
not have counts as an empty one, so that sets with different numbers of blocks can be compared block
by block.

## Main statements

- `contains_insert`, `contains_union`: insertion and union do what they are named for.
- `insert_isNew_iff`, `union_changed_iff`: both report exactly whether there is a new member.
- `length_insert`, `length_union`: how many blocks a set has afterwards.
- `mem_toList`, `pairwise_toList`: the members are listed in ascending order.
- `eq_iff_contains`: sets are equal when they have equally many blocks and the same members.
-/

namespace YaccGrammar.BitSet

/-! ## Blocks -/

/-- The block with a number, empty where a list has none. -/
def blockAt (blocks : List (BitVec 64)) (k : Nat) : BitVec 64 := blocks[k]?.getD 0

/-- Membership is a bit of a block, also for blocks that the set does not have. -/
theorem contains_eq (s : BitSet) (n : Nat) :
    s.contains n = (blockAt s.blocks (n / 64)).getLsbD (n % 64) := by
  unfold contains blockAt
  cases s.blocks[n / 64]? with
  | none => simp
  | some b => rfl

/-- A list of empty blocks has only empty blocks. -/
theorem blockAt_replicate (n k : Nat) : blockAt (List.replicate n 0) k = 0 := by
  unfold blockAt
  rw [List.getElem?_replicate]
  split <;> rfl

/-- Padding adds empty blocks, which count as they did before. -/
theorem blockAt_padded (s : BitSet) (n k : Nat) : blockAt (s.padded n) k = blockAt s.blocks k := by
  unfold padded blockAt
  rw [List.getElem?_append]
  split
  · rfl
  · next h =>
    have hnone : s.blocks[k]? = none := List.getElem?_eq_none (by omega)
    rw [hnone, List.getElem?_replicate]
    split <;> rfl

/-- After padding there are as many blocks as were asked for. -/
theorem length_padded (s : BitSet) (n : Nat) : n ≤ (s.padded n).length := by
  simp only [padded, List.length_append, List.length_replicate]
  omega

/-- A change of one block is seen at the number of that block only. -/
theorem blockAt_modify {blocks : List (BitVec 64)} {j : Nat} (h : j < blocks.length)
    (f : BitVec 64 → BitVec 64) (k : Nat) :
    blockAt (blocks.modify j f) k = if k = j then f (blockAt blocks k) else blockAt blocks k := by
  unfold blockAt
  rw [List.getElem?_modify]
  by_cases hk : k = j
  · subst hk
    simp [h]
  · simp [hk, Ne.symm hk]

/-- A block that the list has is the one that is looked up. -/
theorem blockAt_of_lt {blocks : List (BitVec 64)} {k : Nat} (h : k < blocks.length) :
    blockAt blocks k = blocks[k] := by
  simp [blockAt, h]

/-- A list without blocks has an empty block everywhere. -/
@[simp] theorem blockAt_nil (k : Nat) : blockAt [] k = 0 := rfl

/-- The first block has the number zero. -/
@[simp] theorem blockAt_cons_zero (b : BitVec 64) (l : List (BitVec 64)) :
    blockAt (b :: l) 0 = b := rfl

/-- Behind the first block the numbers are greater by one. -/
@[simp] theorem blockAt_cons_succ (b : BitVec 64) (l : List (BitVec 64)) (k : Nat) :
    blockAt (b :: l) (k + 1) = blockAt l k := by
  simp [blockAt]

/-! ## Insertion -/

/-- The empty set has no members. -/
@[simp] theorem contains_empty (n : Nat) : empty.contains n = false := by
  rw [contains_eq]
  simp [empty]

/-- A new set has no members, whatever it has room for. -/
@[simp] theorem contains_withCapacity (k n : Nat) : (withCapacity k).contains n = false := by
  rw [contains_eq, withCapacity, blockAt_replicate]
  simp

/-- A cleared set has no members. -/
@[simp] theorem contains_clear (s : BitSet) (n : Nat) : s.clear.contains n = false := by
  rw [contains_eq, clear, List.map_const', blockAt_replicate]
  simp

/-- After an insertion the members are the new number and those from before. -/
theorem contains_insert (n m : Nat) (s : BitSet) :
    (s.insert n).2.contains m = true ↔ m = n ∨ s.contains m = true := by
  have hlt : n / 64 < (s.padded (n / 64 + 1)).length := length_padded s (n / 64 + 1)
  simp only [insert, contains_eq, blockAt_modify hlt, blockAt_padded]
  -- numbers in one block are told apart by their bits
  by_cases hblock : m / 64 = n / 64
  · rw [if_pos hblock, BitVec.getLsbD_or, BitVec.getLsbD_twoPow, Bool.or_eq_true]
    have hbit : n % 64 < 64 := Nat.mod_lt n (by decide)
    simp only [hbit, decide_true, Bool.true_and, decide_eq_true_eq]
    constructor
    · rintro (h | h)
      · exact Or.inr h
      · exact Or.inl (by omega)
    · rintro (rfl | h)
      · exact Or.inr rfl
      · exact Or.inl h
  · -- in another block nothing changes, and the new number is not there
    rw [if_neg hblock]
    constructor
    · exact Or.inr
    · rintro (rfl | h)
      · exact absurd rfl hblock
      · exact h

/-- The bit of a new number is not set. -/
theorem and_twoPow_eq_zero_iff (b : BitVec 64) {i : Nat} (hi : i < 64) :
    b &&& BitVec.twoPow 64 i = 0 ↔ b.getLsbD i = false := by
  rw [BitVec.and_twoPow]
  -- if the bit is set, the conjunction has it too, so it is not zero
  cases b.getLsbD i with
  | false => simp
  | true =>
    simp only [if_true, Bool.true_eq_false, iff_false]
    intro hzero
    have hbit := congrArg (fun x => x.getLsbD i) hzero
    simp [hi] at hbit

/-- An insertion reports exactly whether the number was not a member. -/
theorem insert_isNew_iff (n : Nat) (s : BitSet) :
    (s.insert n).1 = true ↔ s.contains n = false := by
  have hlt : n / 64 < (s.padded (n / 64 + 1)).length := length_padded s (n / 64 + 1)
  -- the block that is looked at is there after padding
  have hblock : (s.padded (n / 64 + 1))[n / 64]? = some (blockAt s.blocks (n / 64)) := by
    rw [← blockAt_padded s (n / 64 + 1), blockAt_of_lt hlt, List.getElem?_eq_getElem hlt]
  simp only [insert, hblock, Option.any_some, decide_eq_true_eq, contains_eq]
  exact and_twoPow_eq_zero_iff _ (Nat.mod_lt n (by decide))

/-- The members of a set that is made from a list are those of the list. -/
theorem contains_ofList (l : List Nat) (n : Nat) :
    (ofList l).contains n = true ↔ n ∈ l := by
  -- the members that are there already are collected in the set that the fold begins with
  have hfold (s : BitSet) :
      (l.foldl (fun s n => (s.insert n).2) s).contains n = true ↔ n ∈ l ∨ s.contains n = true := by
    induction l generalizing s with
    | nil => simp
    | cons m l ih =>
      simp only [List.foldl_cons, ih, contains_insert, List.mem_cons]
      tauto
  simpa [ofList] using hfold empty

/-! ## Union -/

/-- A union is taken block by block. -/
theorem blockAt_unionBlocks (s t : List (BitVec 64)) (k : Nat) :
    blockAt (unionBlocks s t) k = blockAt s k ||| blockAt t k := by
  induction s generalizing t k with
  | nil => cases t <;> simp [unionBlocks]
  | cons a s ih =>
    cases t with
    | nil => simp [unionBlocks]
    | cons b t =>
      cases k with
      | zero => rfl
      | succ k => simp [unionBlocks, ih]

/-- The members of a union are those of either set. -/
theorem contains_union (s t : BitSet) (n : Nat) :
    (s.union t).2.contains n = true ↔ s.contains n = true ∨ t.contains n = true := by
  simp only [union, contains_eq, blockAt_unionBlocks, BitVec.getLsbD_or, Bool.or_eq_true]

/-- Blocks are added to exactly if one of them is changed by the union. -/
theorem addsTo_iff (s t : List (BitVec 64)) :
    addsTo s t = true ↔ ∃ k, blockAt s k ||| blockAt t k ≠ blockAt s k := by
  -- the blocks of both sets are compared in pairs, so the induction moves along both
  induction t generalizing s with
  | nil => cases s <;> simp [addsTo]
  | cons b t ih =>
    cases s with
    | nil =>
      -- the first set has no blocks left, so every bit of the other one is new
      simp only [addsTo, Bool.or_eq_true, decide_eq_true_eq, ih]
      constructor
      · rintro (hb | ⟨k, hk⟩)
        · exact ⟨0, by simpa using hb⟩
        · exact ⟨k + 1, by simpa using hk⟩
      · rintro ⟨k, hk⟩
        cases k with
        | zero => exact Or.inl (by simpa using hk)
        | succ k => exact Or.inr ⟨k, by simpa using hk⟩
    | cons a s =>
      simp only [addsTo, Bool.or_eq_true, decide_eq_true_eq, ih]
      constructor
      · rintro (hb | ⟨k, hk⟩)
        · exact ⟨0, hb⟩
        · exact ⟨k + 1, by simpa using hk⟩
      · rintro ⟨k, hk⟩
        cases k with
        | zero => exact Or.inl hk
        | succ k => exact Or.inr ⟨k, by simpa using hk⟩

/-- A block is changed by a union exactly if the other one has a bit that it does not have. -/
theorem or_ne_left_iff (a b : BitVec 64) :
    a ||| b ≠ a ↔ ∃ i < 64, b.getLsbD i = true ∧ a.getLsbD i = false := by
  constructor
  · intro h
    -- without such a bit the two blocks agree bit by bit
    by_contra hnone
    apply h
    apply BitVec.eq_of_getLsbD_eq
    intro i hi
    rw [BitVec.getLsbD_or]
    cases ha : a.getLsbD i with
    | true => rfl
    | false =>
      cases hb : b.getLsbD i with
      | true => exact absurd ⟨i, hi, hb, ha⟩ hnone
      | false => rfl
  · rintro ⟨i, -, hb, ha⟩ h
    have hi := congrArg (fun x => x.getLsbD i) h
    simp [BitVec.getLsbD_or, ha, hb] at hi

/-- A union reports exactly whether it brings a new member. -/
theorem union_changed_iff (s t : BitSet) :
    (s.union t).1 = true ↔ ∃ n, t.contains n = true ∧ s.contains n = false := by
  simp only [union, addsTo_iff, or_ne_left_iff, contains_eq]
  constructor
  · rintro ⟨k, i, hi, ht, hs⟩
    -- bit `i` of block `k` stands for the number `64 * k + i`
    have hdiv : (64 * k + i) / 64 = k := by omega
    have hmod : (64 * k + i) % 64 = i := by omega
    exact ⟨64 * k + i, by rw [hdiv, hmod]; exact ht, by rw [hdiv, hmod]; exact hs⟩
  · rintro ⟨n, ht, hs⟩
    exact ⟨n / 64, n % 64, Nat.mod_lt n (by decide), ht, hs⟩

/-! ## Number of blocks -/

/-- A new set has one block for every sixty-four numbers, and one for those that are left over. -/
@[simp] theorem length_withCapacity (n : Nat) :
    (withCapacity n).blocks.length = (n + 63) / 64 := by
  simp [withCapacity]

/-- Clearing keeps the blocks. -/
@[simp] theorem length_clear (s : BitSet) : s.clear.blocks.length = s.blocks.length := by
  simp [clear]

/-- An insertion makes room for the number, and never gives up a block. -/
theorem length_insert (n : Nat) (s : BitSet) :
    (s.insert n).2.blocks.length = max s.blocks.length (n / 64 + 1) := by
  simp only [insert, padded, List.length_modify, List.length_append, List.length_replicate]
  omega

/-- A union of blocks is as long as the longer of the two lists. -/
theorem length_unionBlocks (s t : List (BitVec 64)) :
    (unionBlocks s t).length = max s.length t.length := by
  -- the induction moves along both lists, as the union does
  induction s generalizing t with
  | nil => cases t <;> simp [unionBlocks]
  | cons a s ih =>
    cases t with
    | nil => simp [unionBlocks]
    | cons b t =>
      rw [unionBlocks, List.length_cons, List.length_cons, List.length_cons, ih]
      omega

/-- A union has as many blocks as the set with more of them. -/
theorem length_union (s t : BitSet) :
    (s.union t).2.blocks.length = max s.blocks.length t.blocks.length :=
  length_unionBlocks s.blocks t.blocks

/-! ## Members -/

/-- The members of blocks that begin at a base are read off their bits. -/
theorem mem_members (base : Nat) (blocks : List (BitVec 64)) (n : Nat) :
    n ∈ members base blocks ↔
      base ≤ n ∧ (blockAt blocks ((n - base) / 64)).getLsbD ((n - base) % 64) = true := by
  induction blocks generalizing base with
  | nil => simp [members]
  | cons b blocks ih =>
    simp only [members, List.mem_append, List.mem_map, List.mem_filter, List.mem_range, ih]
    -- the first block holds the numbers up to `base + 63`, the others those behind
    constructor
    · rintro (⟨i, ⟨hi, hb⟩, rfl⟩ | ⟨hbase, hrest⟩)
      · have hdiv : (base + i - base) / 64 = 0 := by omega
        have hmod : (base + i - base) % 64 = i := by omega
        refine ⟨by omega, ?_⟩
        rw [hdiv, hmod]
        exact hb
      · have hdiv : (n - base) / 64 = (n - (base + 64)) / 64 + 1 := by omega
        have hmod : (n - base) % 64 = (n - (base + 64)) % 64 := by omega
        refine ⟨by omega, ?_⟩
        rw [hdiv, hmod, blockAt_cons_succ]
        exact hrest
    · rintro ⟨hbase, h⟩
      by_cases hn : n < base + 64
      · have hdiv : (n - base) / 64 = 0 := by omega
        have hmod : (n - base) % 64 = n - base := by omega
        rw [hdiv, hmod, blockAt_cons_zero] at h
        exact Or.inl ⟨n - base, ⟨by omega, h⟩, by omega⟩
      · have hdiv : (n - base) / 64 = (n - (base + 64)) / 64 + 1 := by omega
        have hmod : (n - base) % 64 = (n - (base + 64)) % 64 := by omega
        rw [hdiv, hmod, blockAt_cons_succ] at h
        exact Or.inr ⟨by omega, h⟩

/-- The list of a set holds exactly its members. -/
theorem mem_toList (s : BitSet) (n : Nat) : n ∈ s.toList ↔ s.contains n = true := by
  simp [toList, mem_members, contains_eq]

/-- The members of blocks are listed in ascending order. -/
theorem pairwise_members (base : Nat) (blocks : List (BitVec 64)) :
    (members base blocks).Pairwise (· < ·) := by
  induction blocks generalizing base with
  | nil => exact .nil
  | cons b blocks ih =>
    rw [members, List.pairwise_append]
    refine ⟨?_, ih (base + 64), ?_⟩
    · -- within the first block
      rw [List.pairwise_map]
      have hrange : ((List.range 64).filter (b.getLsbD ·)).Pairwise (· < ·) :=
        List.Pairwise.filter _ List.pairwise_lt_range
      exact hrange.imp fun h => Nat.add_lt_add_left h base
    · -- between the first block and those behind it
      intro n hn m hm
      simp only [List.mem_map, List.mem_filter, List.mem_range] at hn
      obtain ⟨i, ⟨hi, -⟩, rfl⟩ := hn
      have hm := ((mem_members _ _ _).mp hm).1
      omega

/-- The members of a set are listed in ascending order, each of them once. -/
theorem pairwise_toList (s : BitSet) : s.toList.Pairwise (· < ·) := pairwise_members 0 s.blocks

/-- Blocks have as many members as bits are set in them. -/
theorem length_members (base : Nat) (blocks : List (BitVec 64)) :
    (members base blocks).length = blocks.foldr (fun b n => blockSize b + n) 0 := by
  induction blocks generalizing base with
  | nil => rfl
  | cons b blocks ih => simp [members, ih, blockSize, List.countP_eq_length_filter]

/-- The size of a set is the number of its members. -/
theorem length_toList (s : BitSet) : s.toList.length = s.size := length_members 0 s.blocks

/-! ## Equality -/

/-- The number of blocks counts, so an empty block at the end tells sets apart. -/
theorem eq_iff_contains (s t : BitSet) :
    s = t ↔ s.blocks.length = t.blocks.length ∧ ∀ n, s.contains n = t.contains n := by
  constructor
  · rintro rfl
    exact ⟨rfl, fun _ => rfl⟩
  · rintro ⟨hlength, hcontains⟩
    -- blocks are equal when all of their bits are, and each bit is a question of membership
    have hblocks : s.blocks = t.blocks := by
      apply List.ext_getElem hlength
      intro k hs ht
      apply BitVec.eq_of_getLsbD_eq
      intro i hi
      have hdiv : (64 * k + i) / 64 = k := by omega
      have hmod : (64 * k + i) % 64 = i := by omega
      have hbit := hcontains (64 * k + i)
      rwa [contains_eq, contains_eq, hdiv, hmod, blockAt_of_lt hs, blockAt_of_lt ht] at hbit
    exact congrArg BitSet.mk hblocks

/-- A union with a set of no more blocks that brings no new member changes nothing. -/
theorem union_eq_self {s t : BitSet} (hchanged : (s.union t).1 = false)
    (hlength : t.blocks.length ≤ s.blocks.length) : (s.union t).2 = s := by
  rw [eq_iff_contains]
  refine ⟨by rw [length_union, Nat.max_eq_left hlength], fun n => ?_⟩
  rw [Bool.eq_iff_iff, contains_union, or_iff_left_iff_imp]
  intro ht
  -- a member that is missing on the left would be a change
  by_contra hs
  have hnew := (union_changed_iff s t).mpr ⟨n, ht, Bool.not_eq_true _ ▸ hs⟩
  rw [hchanged] at hnew
  cases hnew

/-- A cleared set is a new one with the same number of blocks. -/
theorem clear_eq_withCapacity {s : BitSet} {n : Nat}
    (h : s.blocks.length = (withCapacity n).blocks.length) : s.clear = withCapacity n := by
  rw [eq_iff_contains]
  exact ⟨(length_clear s).trans h, fun m => by rw [contains_clear, contains_withCapacity]⟩

end YaccGrammar.BitSet
