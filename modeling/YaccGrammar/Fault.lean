/-!
# Faults

A fault is something that an operation of this library cannot do, as opposed to a mistake in a
grammar file, which is reported. An operation that has to rely on its arguments returns it where
they do not hold good, so that "this never happens" can be stated and proved.
-/

namespace YaccGrammar

/-- What operations of this library refuse. -/
inductive Fault where
  /-- A character was handed back to a reader that still holds one. -/
  | secondPushBack
  /-- The sorted view of a symbol table was read after an insertion and before a sort. -/
  | staleView
  /-- No symbol or rule has this number, or no symbol this position in the sorted view. -/
  | outOfRange
  /-- A counter was lowered at zero. -/
  | belowZero
  /-- A counter was raised at its greatest value. -/
  | overflow
  /-- A number was divided by zero. -/
  | zeroDivisor
  /-- A range was to be passed through without going on. -/
  | zeroStep
  /-- A loop was given up that did not come to its end. -/
  | endless
  /-- A text was to be written in a field that is wider than fields can be. -/
  | wideField
  deriving DecidableEq

namespace Fault

/-! ## Computations that meet no fault

Each step of a computation may be refused. Where none is, the computation is the plain one. -/

variable {α β : Type} {l : List α}

@[simp] theorem ok_bind (a : α) (f : α → Except Fault β) : (Except.ok a >>= f) = f a := rfl

@[simp] theorem error_bind (fault : Fault) (f : α → Except Fault β) :
    (Except.error fault >>= f) = .error fault := rfl

@[simp] theorem pure_eq_ok (a : α) : (pure a : Except Fault α) = .ok a := rfl

@[simp] theorem map_ok (f : α → β) (a : α) :
    Except.map f (.ok a : Except Fault α) = .ok (f a) := rfl

/-- If no member is refused, all results are collected. -/
theorem mapM_eq_ok {f' : α → Except Fault β} {f : α → β} (h : ∀ a ∈ l, f' a = .ok (f a)) :
    l.mapM f' = .ok (l.map f) := by
  induction l with
  | nil => rfl
  | cons a l ih =>
    rw [List.forall_mem_cons] at h
    rw [List.mapM_cons, h.1, ih h.2]
    rfl

/-- Two computations whose steps have the same results have the same result. -/
theorem exists_mapM_eq_ok {f f' : α → Except Fault β}
    (h : ∀ a ∈ l, ∃ b, f a = .ok b ∧ f' a = .ok b) :
    ∃ bs, l.mapM f = .ok bs ∧ l.mapM f' = .ok bs := by
  induction l with
  | nil => exact ⟨[], rfl, rfl⟩
  | cons a l ih =>
    rw [List.forall_mem_cons] at h
    obtain ⟨b, hb, hb'⟩ := h.1
    obtain ⟨bs, hbs, hbs'⟩ := ih h.2
    refine ⟨b :: bs, ?_, ?_⟩
    · rw [List.mapM_cons, hb, ok_bind, hbs]
      rfl
    · rw [List.mapM_cons, hb', ok_bind, hbs']
      rfl

/-- The first member that is refused decides. -/
theorem mapM_cons_eq_error {f : α → Except Fault β} {a : α} {fault : Fault}
    (h : f a = .error fault) : (a :: l).mapM f = .error fault := by
  rw [List.mapM_cons, h]
  rfl

/-- A test of all members that refuses none is the plain test. -/
theorem allM_eq_ok {p' : α → Except Fault Bool} {p : α → Bool} (h : ∀ a ∈ l, p' a = .ok (p a)) :
    l.allM p' = .ok (l.all p) := by
  induction l with
  | nil => rfl
  | cons a l ih =>
    rw [List.forall_mem_cons] at h
    rw [List.allM, h.1, ok_bind, ih h.2, List.all_cons]
    cases p a <;> rfl

/-- A test whether there is a member is the plain one, if no member is refused. -/
theorem anyM_eq_ok {p' : α → Except Fault Bool} {p : α → Bool} (h : ∀ a ∈ l, p' a = .ok (p a)) :
    l.anyM p' = .ok (l.any p) := by
  induction l with
  | nil => rfl
  | cons a l ih =>
    rw [List.forall_mem_cons] at h
    rw [List.anyM, h.1, ok_bind, ih h.2, List.any_cons]
    cases p a <;> rfl

/-- A search for the first member is the plain one, if no member is refused. -/
theorem findM?_eq_ok {p' : α → Except Fault Bool} {p : α → Bool} (h : ∀ a ∈ l, p' a = .ok (p a)) :
    l.findM? p' = .ok (l.find? p) := by
  induction l with
  | nil => rfl
  | cons a l ih =>
    rw [List.forall_mem_cons] at h
    rw [List.findM?, h.1, ok_bind, ih h.2, List.find?_cons]
    cases p a <;> rfl

/-- A choice of members is the plain one, if no member is refused. -/
theorem filterM_eq_ok {p' : α → Except Fault Bool} {p : α → Bool}
    (h : ∀ a ∈ l, p' a = .ok (p a)) : l.filterM p' = .ok (l.filter p) := by
  -- the members that are kept are collected in reverse
  have hcollect (kept : List α) :
      l.filterAuxM p' kept = .ok ((l.filter p).reverse ++ kept) := by
    induction l generalizing kept with
    | nil => rfl
    | cons a l ih =>
      rw [List.forall_mem_cons] at h
      rw [List.filterAuxM, h.1, ok_bind, ih h.2, List.filter_cons]
      cases p a <;> simp
  rw [List.filterM, hcollect []]
  simp

end Fault

end YaccGrammar
