import YaccGrammar.Fault

/-!
# Guarded arithmetic

Counting and dividing where the result may not exist: a counter cannot go below zero, a counter of
32 bits cannot go beyond its greatest value, and there is neither a division by zero nor a range
with steps of width zero.

## Main statements

- `lower_succ`, `raise_of_lt`, `divide_of_pos`, `divideUp_of_pos`, `steps_of_pos`: where the results
  exist.
-/

namespace YaccGrammar.Guarded

/-- One less; refused at zero. -/
def lower (n : Nat) : Except Fault Nat := if n = 0 then .error .belowZero else .ok (n - 1)

/-- One more; refused at the greatest value of a counter of 32 bits. -/
def raise (n : Nat) : Except Fault Nat :=
  if n + 1 < UInt32.size then .ok (n + 1) else .error .overflow

/-- A quotient, rounded down. -/
def divide (a b : Nat) : Except Fault Nat := if b = 0 then .error .zeroDivisor else .ok (a / b)

/-- A quotient, rounded up. -/
def divideUp (a b : Nat) : Except Fault Nat :=
  if b = 0 then .error .zeroDivisor else .ok ((a + b - 1) / b)

/-- The numbers below `stop` that are reached from `start` in steps of the given width. -/
def steps (start stop width : Nat) : Except Fault (List Nat) :=
  if width = 0 then .error .zeroStep
  else .ok ((List.range stop).filter fun i => decide (start ≤ i) && (i - start) % width = 0)

@[simp] theorem lower_succ (n : Nat) : lower (n + 1) = .ok n := rfl

/-- What is not zero can be lowered. -/
theorem lower_of_pos {n : Nat} (h : 0 < n) : lower n = .ok (n - 1) := if_neg (Nat.ne_of_gt h)

/-- What is not the greatest value can be raised. -/
theorem raise_of_lt {n : Nat} (h : n + 1 < UInt32.size) : raise n = .ok (n + 1) := if_pos h

/-- There is a quotient unless the divisor is zero. -/
theorem divide_of_pos {b : Nat} (h : 0 < b) (a : Nat) : divide a b = .ok (a / b) :=
  if_neg (Nat.ne_of_gt h)

/-- There is a quotient, rounded up, unless the divisor is zero. -/
theorem divideUp_of_pos {b : Nat} (h : 0 < b) (a : Nat) :
    divideUp a b = .ok ((a + b - 1) / b) :=
  if_neg (Nat.ne_of_gt h)

/-- Steps of a width other than zero go on. -/
theorem steps_of_pos {width : Nat} (h : 0 < width) (start stop : Nat) :
    steps start stop width =
      .ok ((List.range stop).filter fun i => decide (start ≤ i) && (i - start) % width = 0) :=
  if_neg (Nat.ne_of_gt h)

end YaccGrammar.Guarded
