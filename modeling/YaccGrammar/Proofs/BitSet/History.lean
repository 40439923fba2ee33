import Mathlib.Data.Finset.Sort
import Mathlib.Logic.Function.Basic
import YaccGrammar.Proofs.BitSet.Cursor

/-!
# Histories of bit sets

Any number of sets, held under names, on which operations are carried out one after the other. The
same operations are carried out on finite sets of numbers. One operation answers the same on both
sides and takes sets that agree to sets that agree; so do all of them together.

## Main statements

- `agree_act`: what one operation preserves.
- `agree_run`: what a history preserves.
- `history_refines`: what can be seen of sets with a common history.
-/

namespace YaccGrammar.BitSet

/-! ## Denotation -/

/-- The members as a finite set. -/
def toFinset (s : BitSet) : Finset Nat := s.toList.toFinset

/-- The finite set of a bit set has the same members. -/
@[simp] theorem mem_toFinset {s : BitSet} {n : Nat} : n ∈ s.toFinset ↔ s.contains n = true := by
  simp [toFinset, mem_toList]

/-- A number that is not in the finite set is reported as absent. -/
theorem notMem_toFinset {s : BitSet} {n : Nat} : n ∉ s.toFinset ↔ s.contains n = false := by
  simp

/-- No member is listed twice. -/
theorem nodup_toList (s : BitSet) : s.toList.Nodup := s.pairwise_toList.imp Nat.ne_of_lt

/-- The sorted finite set is the list of the members. -/
theorem sort_toFinset (s : BitSet) : s.toFinset.sort = s.toList :=
  (List.toFinset_sort (· ≤ ·) s.nodup_toList).mpr (s.pairwise_toList.imp Nat.le_of_lt)

/-- The finite set has as many members as the bit set counts. -/
theorem card_toFinset (s : BitSet) : s.toFinset.card = s.size := by
  rw [toFinset, List.toFinset_card_of_nodup s.nodup_toList, length_toList]

/-- The empty set denotes the empty set. -/
@[simp] theorem toFinset_empty : empty.toFinset = ∅ := by ext n; simp

/-- A new set with room denotes the empty set. -/
@[simp] theorem toFinset_withCapacity (n : Nat) : (withCapacity n).toFinset = ∅ := by ext m; simp

/-- A cleared set denotes the empty set. -/
@[simp] theorem toFinset_clear (s : BitSet) : s.clear.toFinset = ∅ := by ext n; simp

/-- A set that is made from a list denotes the set of its entries. -/
@[simp] theorem toFinset_ofList (l : List Nat) : (ofList l).toFinset = l.toFinset := by
  ext n
  simp only [mem_toFinset, contains_ofList, List.mem_toFinset]

/-- Insertion into blocks is insertion into the finite set. -/
@[simp] theorem toFinset_insert (s : BitSet) (n : Nat) :
    (s.insert n).2.toFinset = Insert.insert n s.toFinset := by
  ext m
  simp only [mem_toFinset, contains_insert, Finset.mem_insert]

/-- The union of blocks is the union of the finite sets. -/
@[simp] theorem toFinset_union (s t : BitSet) :
    (s.union t).2.toFinset = s.toFinset ∪ t.toFinset := by
  ext n
  simp only [mem_toFinset, contains_union, Finset.mem_union]

/-- A union is reported as a change exactly when the set has grown. -/
theorem union_changed_iff_ssubset (s t : BitSet) :
    (s.union t).1 = true ↔ s.toFinset ⊂ s.toFinset ∪ t.toFinset := by
  rw [union_changed_iff, Finset.ssubset_iff_subset_ne, ne_eq, eq_comm, Finset.union_eq_left]
  simp only [Finset.subset_union_left, true_and, Finset.not_subset, mem_toFinset, Bool.not_eq_true]

/-- Sets are equal if they have equally many blocks and denote the same finite set. -/
theorem eq_iff_toFinset (s t : BitSet) :
    s = t ↔ s.blocks.length = t.blocks.length ∧ s.toFinset = t.toFinset := by
  rw [eq_iff_contains, Finset.ext_iff]
  simp only [mem_toFinset, ← Bool.eq_iff_iff]

/-! ## Operations -/

/-- An operation on sets that are held under names. -/
inductive Operation (ι : Type)
  | new (a : ι)
  | withCapacity (a : ι) (n : Nat)
  | ofList (a : ι) (l : List Nat)
  /-- The set of the first name becomes a copy of the other one. -/
  | clone (a b : ι)
  | insert (a : ι) (n : Nat)
  /-- The members of the second set are added to the first one. -/
  | union (a b : ι)
  | clear (a : ι)
  deriving DecidableEq

namespace Operation

variable {ι : Type}

/-- The name of the set that is written. -/
def target : Operation ι → ι
  | new a | withCapacity a _ | ofList a _ | clone a _ | insert a _ | union a _ | clear a => a

/-- What an operation answers, if it does, and the bit set that it writes. -/
def act (sets : ι → BitSet) : Operation ι → Option Bool × BitSet
  | new _ => (none, .empty)
  | withCapacity _ n => (none, .withCapacity n)
  | ofList _ l => (none, .ofList l)
  | clone _ b => (none, sets b)
  | insert a n => ((sets a).insert n).map some id
  | union a b => ((sets a).union (sets b)).map some id
  | clear a => (none, (sets a).clear)

/-- What an operation means: an insertion answers whether the number was absent, a union whether the
set has grown. -/
def meaning (sets : ι → Finset Nat) : Operation ι → Option Bool × Finset Nat
  | new _ => (none, ∅)
  | withCapacity _ _ => (none, ∅)
  | ofList _ l => (none, l.toFinset)
  | clone _ b => (none, sets b)
  | insert a n => (some (n ∉ sets a), Insert.insert n (sets a))
  | union a b => (some (sets a ⊂ sets a ∪ sets b), sets a ∪ sets b)
  | clear _ => (none, ∅)

/-- One operation answers as it should and writes the set that it should. -/
theorem agree_act {sets : ι → BitSet} {members : ι → Finset Nat}
    (h : ∀ a, (sets a).toFinset = members a) (o : Operation ι) :
    (o.act sets).1 = (o.meaning members).1 ∧ (o.act sets).2.toFinset = (o.meaning members).2 := by
  -- only insertion and union answer anything
  cases o with
  | new a => simp [act, meaning]
  | withCapacity a n => simp [act, meaning]
  | ofList a l => simp [act, meaning]
  | clone a b => simp [act, meaning, h]
  | clear a => simp [act, meaning]
  | insert a n =>
    have hanswer : ((sets a).insert n).1 = decide (n ∉ members a) := by
      rw [Bool.eq_iff_iff, insert_isNew_iff, decide_eq_true_iff, ← h a, notMem_toFinset]
    simp [act, meaning, hanswer, h]
  | union a b =>
    have hanswer : ((sets a).union (sets b)).1 = decide (members a ⊂ members a ∪ members b) := by
      rw [Bool.eq_iff_iff, union_changed_iff_ssubset, decide_eq_true_iff, h a, h b]
    simp [act, meaning, hanswer, h]

variable [DecidableEq ι]

/-- Carries out one operation after the other; only the target of an operation is written. -/
def run {α : Type} (f : (ι → α) → Operation ι → Option Bool × α) :
    List (Operation ι) → (ι → α) → List (Option Bool) × (ι → α)
  | [], sets => ([], sets)
  | o :: later, sets =>
    let (answer, written) := f sets o
    let (answers, sets) := run f later (Function.update sets o.target written)
    (answer :: answers, sets)

/-- Sets that agree in the beginning give the same answers and agree in the end. -/
theorem agree_run (os : List (Operation ι)) {sets : ι → BitSet} {members : ι → Finset Nat}
    (h : ∀ a, (sets a).toFinset = members a) :
    (run act os sets).1 = (run meaning os members).1 ∧
      ∀ a, ((run act os sets).2 a).toFinset = (run meaning os members).2 a := by
  induction os generalizing sets members with
  | nil => exact ⟨rfl, h⟩
  | cons o later ih =>
    obtain ⟨hanswer, hwritten⟩ := agree_act h o
    have hagree (a : ι) : (Function.update sets o.target (o.act sets).2 a).toFinset =
        Function.update members o.target (o.meaning members).2 a := by
      -- the target is written on both sides, and all other sets stay
      by_cases ha : a = o.target
      · simp [ha, hwritten]
      · simp [ha, h]
    simp only [run, hanswer, (ih hagree).1, true_and]
    exact (ih hagree).2

end Operation

/-! ## What can be seen of a set -/

/-- All that can be learned about the members of a set without looking at its blocks. -/
structure Shows (s : BitSet) (members : Finset Nat) : Prop where
  contains (n : Nat) : s.contains n = true ↔ n ∈ members
  size : s.size = members.card
  /-- The answers of a cursor, one call after the other, in ascending order and then nothing. -/
  cursor (k : Nat) : answer Cursor.next k s.cursor = members.sort[k]?
  walk (k : Nat) : answer Walk.next k s.walk = members.sort[k]?
  insert (n : Nat) : (s.insert n).1 = true ↔ n ∉ members

/-- A bit set shows the finite set that it denotes. -/
theorem shows_toFinset (s : BitSet) : s.Shows s.toFinset where
  contains n := mem_toFinset.symm
  size := s.card_toFinset.symm
  cursor k := by rw [answer_cursor, sort_toFinset]
  walk k := by rw [answer_walk, sort_toFinset]
  insert n := by rw [insert_isNew_iff, notMem_toFinset]

/-- Bit sets refine finite sets of numbers. After any history all answers were those of the finite
sets, and each bit set shows the finite set of the same history. A union says exactly whether its
first set has grown, and leaves the other one as it was, block by block. Bit sets are equal when
they have equally many blocks and the same members. -/
theorem history_refines {ι : Type} [DecidableEq ι] (os : List (Operation ι)) :
    let (answers, sets) := Operation.run Operation.act os fun _ => empty
    let (meant, members) := Operation.run Operation.meaning os fun _ => ∅
    answers = meant ∧
      (∀ a, (sets a).Shows (members a)) ∧
      (∀ a b, ((sets a).union (sets b)).1 = true ↔ members a ⊂ members a ∪ members b) ∧
      (∀ a b, b ≠ a → (Operation.run Operation.act [.union a b] sets).2 b = sets b) ∧
      ∀ a b, sets a = sets b ↔
        (sets a).blocks.length = (sets b).blocks.length ∧ members a = members b := by
  -- both sides begin with empty sets
  obtain ⟨hanswers, hmembers⟩ := Operation.agree_run os (fun _ : ι => toFinset_empty)
  dsimp only
  refine ⟨hanswers, ?_, ?_, ?_, ?_⟩
  · intro a
    exact hmembers a ▸ shows_toFinset _
  · intro a b
    rw [← hmembers a, ← hmembers b]
    exact union_changed_iff_ssubset _ _
  · intro a b hab
    exact Function.update_of_ne hab _ _
  · intro a b
    rw [← hmembers a, ← hmembers b]
    exact eq_iff_toFinset _ _

end YaccGrammar.BitSet
