import Mathlib.Data.List.Sort
import YaccGrammar.BitSet.Cursor
import YaccGrammar.Proofs.BitSet

/-!
# Visits of bit sets

What lies ahead of a visit are the members from some position on. Both a walk and a cursor answer
with the first of them and go on to those behind it. So the answers to all calls, one after the
other, are the members in ascending order, and nothing from then on.

## Main statements

- `Walk.next_eq`, `Cursor.next_eq`: what one call answers, and what is left ahead.
- `answer_walk`, `answer_cursor`: the answers to all calls.
-/

namespace YaccGrammar.BitSet

/-! ## Members ahead -/

/-- The members from a position on. -/
def ahead (s : BitSet) (p : Nat) : List Nat := s.toList.filter (p ≤ ·)

section Ahead

variable {s : BitSet} {p q n : Nat}

/-- Ahead of a position lie the members that are not less than it. -/
theorem mem_ahead : n ∈ s.ahead p ↔ s.contains n = true ∧ p ≤ n := by
  simp [ahead, mem_toList]

/-- What lies ahead is in ascending order. -/
theorem pairwise_ahead (s : BitSet) (p : Nat) : (s.ahead p).Pairwise (· < ·) :=
  s.pairwise_toList.filter _

/-- In the beginning all members lie ahead. -/
theorem ahead_zero (s : BitSet) : s.ahead 0 = s.toList := by simp [ahead]

/-- Positions between which there is no member are as good as each other. -/
theorem ahead_congr (hpq : p ≤ q) (hnone : ∀ n, s.contains n = true → p ≤ n → q ≤ n) :
    s.ahead p = s.ahead q := by
  apply List.filter_congr
  intro n hn
  have hn := hnone n ((mem_toList s n).mp hn)
  simp only [decide_eq_decide]
  exact ⟨hn, fun h => Nat.le_trans hpq h⟩

/-- Behind the first member ahead lie the other ones. -/
theorem ahead_of_head? (h : (s.ahead p).head? = some n) : s.ahead p = n :: s.ahead (n + 1) := by
  obtain ⟨later, hlater⟩ := List.head?_eq_some_iff.mp h
  have hmem : s.contains n = true ∧ p ≤ n := mem_ahead.mp (hlater ▸ List.mem_cons_self)
  have hsorted := s.pairwise_ahead p
  rw [hlater, List.pairwise_cons] at hsorted
  rw [hlater]
  congr 1
  -- two strictly ascending lists with the same members
  apply hsorted.2.eq_of_mem_iff (s.pairwise_ahead (n + 1))
  intro m
  constructor
  · intro hm
    -- what comes later is ahead of the first position too, and greater than the first member
    have hahead : s.contains m = true ∧ p ≤ m := mem_ahead.mp (hlater ▸ List.mem_cons_of_mem n hm)
    exact mem_ahead.mpr ⟨hahead.1, hsorted.1 m hm⟩
  · intro hm
    -- a member that is greater than the first one is not the first one
    obtain ⟨hcontains, hlt⟩ := mem_ahead.mp hm
    have hm : m ∈ s.ahead p := mem_ahead.mpr ⟨hcontains, by omega⟩
    rw [hlater, List.mem_cons] at hm
    exact hm.resolve_left (by omega)

/-- The least member from a position on comes first. -/
theorem ahead_eq_cons (hn : s.contains n = true) (hp : p ≤ n)
    (hleast : ∀ m, s.contains m = true → p ≤ m → n ≤ m) : s.ahead p = n :: s.ahead (n + 1) := by
  apply ahead_of_head?
  have hmem : n ∈ s.ahead n := mem_ahead.mpr ⟨hn, Nat.le_refl n⟩
  rw [ahead_congr hp hleast]
  -- `n` is ahead of itself, so the list begins with a number that is no greater
  cases hahead : s.ahead n with
  | nil => simp [hahead] at hmem
  | cons m later =>
    have hm : n ≤ m := (mem_ahead.mp (hahead ▸ List.mem_cons_self)).2
    have hsorted := s.pairwise_ahead n
    rw [hahead, List.pairwise_cons] at hsorted
    rw [hahead, List.mem_cons] at hmem
    rcases hmem with rfl | hlater
    · rfl
    · have hlt := hsorted.1 n hlater
      omega

/-- A member is in one of the blocks that the set has. -/
theorem lt_of_contains (h : s.contains n = true) : n < 64 * s.blocks.length := by
  by_contra hn
  have hnone : s.blocks[n / 64]? = none := List.getElem?_eq_none (by omega)
  simp [contains, hnone] at h

/-- Behind the last block nothing lies ahead. -/
theorem ahead_eq_nil (h : 64 * s.blocks.length ≤ p) : s.ahead p = [] := by
  rw [List.eq_nil_iff_forall_not_mem]
  intro n hn
  obtain ⟨hcontains, hp⟩ := mem_ahead.mp hn
  have hlt := lt_of_contains hcontains
  omega

end Ahead

/-! ## Answers -/

/-- The answer to a call, counted from zero, when one call is made after the other. -/
def answer {σ : Type} (next : σ → Option Nat × σ) : Nat → σ → Option Nat
  | 0, a => (next a).1
  | k + 1, a => answer next k (next a).2

/-- When each call answers with the first of what lies ahead and leaves the rest ahead, all of it is
met in order, and nothing from then on. -/
theorem answer_eq {σ : Type} {next : σ → Option Nat × σ} {ahead : σ → List Nat} {P : σ → Prop}
    (hnext : ∀ a, P a →
      (next a).1 = (ahead a).head? ∧ ahead (next a).2 = (ahead a).tail ∧ P (next a).2)
    (k : Nat) {a : σ} (ha : P a) : answer next k a = (ahead a)[k]? := by
  -- one call is taken away in front, and with it the head of what lies ahead
  induction k generalizing a with
  | zero => rw [answer, (hnext a ha).1, List.head?_eq_getElem?]
  | succ k ih => rw [answer, ih (hnext a ha).2.2, (hnext a ha).2.1, List.getElem?_tail]

/-! ## Walks -/

/-- The members from the beginning of a block on are those of the blocks from there on. -/
theorem members_drop (base k : Nat) (blocks : List (BitVec 64)) :
    members (base + 64 * k) (blocks.drop k) =
      (members base blocks).filter (base + 64 * k ≤ ·) := by
  induction blocks generalizing base k with
  | nil => simp [members]
  | cons b blocks ih =>
    cases k with
    | zero =>
      -- nothing is dropped, and no member is less than the base
      rw [Nat.mul_zero, Nat.add_zero, List.drop_zero, eq_comm, List.filter_eq_self]
      intro n hn
      exact decide_eq_true ((mem_members base (b :: blocks) n).mp hn).1
    | succ k =>
      have hbase : base + 64 * (k + 1) = base + 64 + 64 * k := by omega
      -- the first block holds smaller numbers
      have hfirst : (((List.range 64).filter (b.getLsbD ·)).map (base + ·)).filter
          (base + 64 * (k + 1) ≤ ·) = [] := by
        rw [List.filter_eq_nil_iff]
        simp only [List.mem_map, List.mem_filter, List.mem_range, decide_eq_true_eq]
        rintro n ⟨i, ⟨hi, -⟩, rfl⟩
        omega
      rw [members, List.filter_append, hfirst, List.nil_append, List.drop_succ_cons, hbase, ih]

/-- What lies ahead of a walk. -/
def Walk.ahead (w : Walk) : List Nat := w.set.ahead w.position

/-- A walk looks only at the blocks from its position on. -/
theorem Walk.find?_eq (w : Walk) :
    (members (64 * (w.position / 64)) (w.set.blocks.drop (w.position / 64))).find?
      (w.position ≤ ·) = w.ahead.head? := by
  have hblocks := members_drop 0 (w.position / 64) w.set.blocks
  simp only [Nat.zero_add] at hblocks
  rw [hblocks, ← List.head?_filter, List.filter_filter, Walk.ahead, BitSet.ahead, toList]
  congr 2
  funext n
  simp only [← Bool.decide_and, decide_eq_decide]
  omega

/-- A walk answers with the first of what lies ahead and goes on to the rest. -/
theorem Walk.next_eq (w : Walk) :
    w.next.1 = w.ahead.head? ∧ w.next.2.ahead = w.ahead.tail := by
  unfold Walk.next
  dsimp only
  rw [w.find?_eq]
  -- at the end the walk stays where it is, which leaves nothing ahead
  cases hhead : w.ahead.head? with
  | none => simp [List.head?_eq_none_iff.mp hhead]
  | some n =>
    refine ⟨rfl, ?_⟩
    have hahead : w.ahead = n :: w.set.ahead (n + 1) := ahead_of_head? hhead
    rw [hahead]
    rfl

/-- A walk meets the members in ascending order, and nothing from then on. -/
theorem answer_walk (s : BitSet) (k : Nat) : answer Walk.next k s.walk = s.toList[k]? := by
  have hnext (w : Walk) (_ : True) :
      w.next.1 = w.ahead.head? ∧ w.next.2.ahead = w.ahead.tail ∧ True :=
    ⟨w.next_eq.1, w.next_eq.2, trivial⟩
  rw [answer_eq hnext k trivial, Walk.ahead, walk, ahead_zero]

/-! ## Cursors -/

/-- Above the trailing zeros there is the lowest bit that is set. -/
theorem getLsbD_trailingZeros {b : BitVec 64} (h : trailingZeros b < 64) :
    b.getLsbD (trailingZeros b) = true ∧ ∀ i < trailingZeros b, b.getLsbD i = false := by
  unfold trailingZeros at h ⊢
  cases hfind : (List.range 64).find? (b.getLsbD ·) with
  | none => simp [hfind] at h
  | some low =>
    obtain ⟨hlow, -, hbelow⟩ := List.find?_range_eq_some.mp hfind
    simp only [Option.getD_some]
    exact ⟨hlow, fun i hi => by simpa using hbelow i hi⟩

/-- A block that has nothing but trailing zeros has no bit that is set. -/
theorem getLsbD_of_trailingZeros {b : BitVec 64} (h : ¬ trailingZeros b < 64) {i : Nat}
    (hi : i < 64) : b.getLsbD i = false := by
  unfold trailingZeros at h
  cases hfind : (List.range 64).find? (b.getLsbD ·) with
  | none => simpa using List.find?_range_eq_none.mp hfind i hi
  | some low =>
    have hlow := List.mem_range.mp (List.find?_range_eq_some.mp hfind).2.1
    simp [hfind, hlow] at h

/-- The mask hides the bits that have been passed. -/
theorem getLsbD_mask (b : BitVec 64) (k : Nat) {i : Nat} (hi : i < 64) :
    (b &&& (BitVec.allOnes 64 <<< k)).getLsbD i = (b.getLsbD i && decide (k ≤ i)) := by
  have hshift : i - k < 64 := by omega
  simp only [BitVec.getLsbD_and, BitVec.getLsbD_shiftLeft, BitVec.getLsbD_allOnes, hi, hshift,
    decide_true, Bool.true_and, Bool.and_true, ← decide_not, Nat.not_lt]

/-- What lies ahead of a cursor. -/
def Cursor.ahead (c : Cursor) : List Nat := (BitSet.mk c.blocks).ahead (64 * c.index + c.bit)

/-- The bits of the block of the cursor say which of its numbers are members. -/
theorem Cursor.contains_of_drop {c : Cursor} {b : BitVec 64} {later : List (BitVec 64)}
    (h : c.blocks.drop c.index = b :: later) {i : Nat} (hi : i < 64) :
    (BitSet.mk c.blocks).contains (64 * c.index + i) = b.getLsbD i := by
  have hdiv : (64 * c.index + i) / 64 = c.index := by omega
  have hmod : (64 * c.index + i) % 64 = i := by omega
  have hblock : c.blocks[c.index]? = some b := by
    rw [← List.head?_drop, h, List.head?_cons]
  simp [contains, hdiv, hmod, hblock]

/-- Of the blocks from that of the cursor on, the first one with a bit that has not been passed
holds the next member. -/
theorem Cursor.scan_eq {later : List (BitVec 64)} {c : Cursor}
    (hlater : c.blocks.drop c.index = later) (hbit : c.bit ≤ 64) :
    (scan later c).1 = c.ahead.head? ∧ (scan later c).2.ahead = c.ahead.tail ∧
      (scan later c).2.bit ≤ 64 := by
  induction later generalizing c with
  | nil =>
    -- no block is left, and none of the members is behind the last one
    have hend : c.blocks.length ≤ c.index := List.drop_eq_nil_iff.mp hlater
    have hnil : c.ahead = [] := ahead_eq_nil (by simp only; omega)
    simp [scan, hnil, hbit]
  | cons b later ih =>
    have hcontains {i : Nat} (hi : i < 64) := Cursor.contains_of_drop hlater hi
    rw [scan]
    split
    next h =>
      simp only [Bool.and_eq_true, decide_eq_true_eq] at h
      obtain ⟨hlow, hbelow⟩ := getLsbD_trailingZeros h.2
      generalize trailingZeros (b &&& (BitVec.allOnes 64 <<< c.bit)) = low at *
      rw [getLsbD_mask b c.bit h.2, Bool.and_eq_true, decide_eq_true_eq] at hlow
      -- no bit between the position and the lowest one is set
      have hahead : c.ahead = (64 * c.index + low) ::
          (BitSet.mk c.blocks).ahead (64 * c.index + low + 1) := by
        apply ahead_eq_cons
        · rw [hcontains h.2, hlow.1]
        · omega
        · intro m hm hp
          by_contra hlt
          obtain ⟨i, rfl⟩ : ∃ i, m = 64 * c.index + i := ⟨m - 64 * c.index, by omega⟩
          have hclear := hbelow i (by omega)
          rw [getLsbD_mask b c.bit (by omega), ← hcontains (by omega), hm] at hclear
          simp only [Bool.true_and, decide_eq_false_iff_not] at hclear
          omega
      refine ⟨?_, ?_, h.2⟩
      · rw [hahead, List.head?_cons]
      · rw [hahead, List.tail_cons]
        rfl
    next h =>
      -- the block is passed
      have hclear {i : Nat} (hi : i < 64) (hp : c.bit ≤ i) : b.getLsbD i = false := by
        have hbits : ¬ trailingZeros (b &&& (BitVec.allOnes 64 <<< c.bit)) < 64 := by
          intro hlow
          exact h (by simp only [hlow, decide_true, Bool.and_true, decide_eq_true_eq]; omega)
        have hmasked := getLsbD_of_trailingZeros hbits hi
        rwa [getLsbD_mask b c.bit hi, decide_eq_true hp, Bool.and_true] at hmasked
      have hahead : c.ahead = Cursor.ahead { c with bit := 0, index := c.index + 1 } := by
        apply ahead_congr
        · simp only
          omega
        · intro m hm hp
          by_contra hlt
          obtain ⟨i, rfl⟩ : ∃ i, m = 64 * c.index + i := ⟨m - 64 * c.index, by omega⟩
          simp only at hlt
          rw [hcontains (by omega), hclear (by omega) (by omega)] at hm
          cases hm
      have hdrop : c.blocks.drop (c.index + 1) = later := by
        rw [← List.drop_drop, hlater, List.drop_succ_cons, List.drop_zero]
      rw [hahead]
      exact ih hdrop (Nat.zero_le 64)

/-- A cursor answers with the first of what lies ahead and goes on to the rest. -/
theorem Cursor.next_eq {c : Cursor} (hbit : c.bit ≤ 64) :
    c.next.1 = c.ahead.head? ∧ c.next.2.ahead = c.ahead.tail ∧ c.next.2.bit ≤ 64 :=
  Cursor.scan_eq rfl hbit

/-- A cursor meets the members in ascending order, and nothing from then on. -/
theorem answer_cursor (s : BitSet) (k : Nat) : answer Cursor.next k s.cursor = s.toList[k]? := by
  have hnext (c : Cursor) (hbit : c.bit ≤ 64) :
      c.next.1 = c.ahead.head? ∧ c.next.2.ahead = c.ahead.tail ∧ c.next.2.bit ≤ 64 :=
    Cursor.next_eq hbit
  have hstart : s.cursor.bit ≤ 64 := Nat.zero_le 64
  have hahead : s.cursor.ahead = s.toList := ahead_zero s
  rw [answer_eq hnext k hstart, hahead]

end YaccGrammar.BitSet
