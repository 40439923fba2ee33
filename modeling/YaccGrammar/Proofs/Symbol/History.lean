import YaccGrammar.Proofs.Symbol.Consistent
import YaccGrammar.Proofs.Text.ByteOrder

/-!
# Histories of tables

The calls that a table has answered tell all that matters about it: its names are those that were
inserted, in order of their first insertion, and its view is stale when one of them was inserted for
the first time after the last sort. One call that refers to known symbols keeps this in step, and so
do all of them, from the empty table on.

## Main statements

- `Tracks.call`, `tracks_calls`: what one call and what a history preserves.
- `interned_calls`: names and numbers belong together, and the counts are exact.
-/

namespace YaccGrammar.SymbolTable

open Fault

/-! ## Calls -/

/-- A call of a table. -/
inductive Call
  | insert (n : String)
  | get (n : String)
  | setKind (id : SymbolId) (kind : SymbolKind)
  | sort
  deriving DecidableEq

/-- What a table answers. -/
inductive Answer
  | id (id : SymbolId)
  | found (id? : Option SymbolId)
  | done
  | view (ids : List SymbolId)
  deriving DecidableEq

/-- Makes one call. A number that no symbol has is refused. -/
def call (t : SymbolTable) : Call → Except Fault (Answer × SymbolTable)
  | .insert n => return (.id (t.insert n).1, (t.insert n).2)
  | .get n => return (.found (t.find? n), t)
  | .setKind id kind => do
    let t ← Guarded.setKind t id kind
    return (.done, t)
  | .sort => do
    let t ← Guarded.sort t
    return (.view t.view, t)

/-- Makes one call after the other. -/
def calls (t : SymbolTable) : List Call → Except Fault (List Answer × SymbolTable)
  | [] => return ([], t)
  | c :: later => do
    let (answer, t) ← t.call c
    let (answers, t) ← t.calls later
    return (answer :: answers, t)

/-- A call refers to one of the first `size` symbols, if it refers to one by its number. -/
def Call.InRange (size : Nat) : Call → Prop
  | .setKind id _ => id < size
  | _ => True

/-- The names after a call; only an insertion adds one. -/
def Call.addTo (names : List String) : Call → List String
  | .insert n => if n ∈ names then names else names ++ [n]
  | _ => names

/-- What a table answers to a call that is not refused. -/
def answer (t : SymbolTable) : Call → Answer
  | .insert n => .id (t.insert n).1
  | .get n => .found (t.find? n)
  | .setKind _ _ => .done
  | .sort => .view t.sort.view

/-- The table after a call that is not refused. -/
def after (t : SymbolTable) : Call → SymbolTable
  | .insert n => (t.insert n).2
  | .get _ => t
  | .setKind id kind => t.setKind id kind
  | .sort => t.sort

section Calls

variable {t t' : SymbolTable} {c : Call} {cs : List Call} {a : Answer} {answers : List Answer}

/-- A history is made in two parts, the second one from where the first has led. -/
theorem calls_append (t : SymbolTable) (cs later : List Call) :
    t.calls (cs ++ later) = do
      let (answers, t') ← t.calls cs
      let (answers', t') ← t'.calls later
      return (answers ++ answers', t') := by
  -- on the first part; a fault in it is the fault of the whole
  induction cs generalizing t with
  | nil =>
    simp only [calls, List.nil_append, pure_eq_ok, ok_bind]
    cases t.calls later <;> rfl
  | cons c cs ih =>
    simp only [calls, List.cons_append]
    cases t.call c with
    | error fault => rfl
    | ok r =>
      simp only [ok_bind, ih]
      cases r.2.calls cs with
      | error fault => rfl
      | ok r' =>
        simp only [ok_bind, pure_eq_ok]
        cases r'.2.calls later <;> rfl

/-- A call that refers to a known symbol is answered. -/
theorem Consistent.call_eq_ok (ht : t.Consistent) (hc : c.InRange t.size) :
    t.call c = .ok (t.answer c, t.after c) := by
  cases c with
  | insert n => rfl
  | get n => rfl
  | setKind id kind =>
    obtain ⟨x, hx⟩ := exists_get?_of_lt hc
    simp [call, ht.setKind_eq_ok hx, answer, after]
  | sort => simp [call, Guarded.sort_eq_ok, answer, after]

/-- A call that refers to no symbol is refused. -/
theorem call_eq_error (hc : ¬ c.InRange t.size) : t.call c = .error .outOfRange := by
  cases c with
  | setKind id kind =>
    have hnone : t.get? id = none := List.getElem?_eq_none (Nat.le_of_not_lt hc)
    simp [call, Guarded.setKind, Guarded.symbol, hnone]
  | _ => exact absurd trivial hc

/-- A call is answered or refused. -/
theorem Consistent.call_cases (ht : t.Consistent) (h : t.call c = .ok (a, t')) :
    c.InRange t.size ∧ a = t.answer c ∧ t' = t.after c := by
  by_cases hc : c.InRange t.size
  · rw [ht.call_eq_ok hc] at h
    cases h
    exact ⟨hc, rfl, rfl⟩
  · rw [call_eq_error hc] at h
    cases h

/-- A call keeps a table consistent. -/
theorem Consistent.after (ht : t.Consistent) (hc : c.InRange t.size) : (t.after c).Consistent := by
  cases c with
  | insert n => exact ht.insert n
  | get n => exact ht
  | setKind id kind =>
    obtain ⟨x, hx⟩ := exists_get?_of_lt hc
    exact ht.setKind hx kind
  | sort => exact ht.sort

/-- What a call adds to the names does not depend on the rest of the table. -/
theorem names_after (hc : c.InRange t.size) : (t.after c).names = c.addTo t.names := by
  cases c with
  | insert n => exact t.names_insert n
  | get n => rfl
  | setKind id kind => exact t.names_setKind id kind
  | sort => exact t.names_sort

/-- A call keeps all names at their numbers. -/
theorem names_prefix_after (hc : c.InRange t.size) : t.names <+: (t.after c).names := by
  rw [names_after hc]
  cases c with
  | insert n =>
    simp only [Call.addTo]
    split
    · exact List.prefix_refl _
    · exact List.prefix_append _ _
  | _ => exact List.prefix_refl _

/-- No call takes a name away or gives it another number. -/
theorem Consistent.names_prefix (ht : t.Consistent) (h : t.calls cs = .ok (answers, t')) :
    t.names <+: t'.names := by
  induction cs generalizing t answers with
  | nil =>
    cases h
    exact List.prefix_refl _
  | cons c cs ih =>
    rw [calls] at h
    cases hcall : t.call c with
    | error fault =>
      rw [hcall] at h
      cases h
    | ok r =>
      obtain ⟨a, t₁⟩ := r
      -- a call that was answered referred to a known symbol
      obtain ⟨hc, -, rfl⟩ := ht.call_cases hcall
      rw [hcall, ok_bind] at h
      dsimp only at h
      cases hlater : (t.after c).calls cs with
      | error fault =>
        rw [hlater] at h
        cases h
      | ok r' =>
        rw [hlater] at h
        cases h
        exact (names_prefix_after hc).trans (ih (ht.after hc) hlater)

/-- A name that was found is found at its number when more names are there. -/
theorem find?_of_prefix_names (h : t.names <+: t'.names) {n : String} {id : SymbolId}
    (hn : t.find? n = some id) : t'.find? n = some id := by
  rw [find?_eq_findIdx?] at hn ⊢
  exact h.findIdx?_eq_some hn

end Calls

/-! ## Histories -/

/-- The names that are inserted. -/
def inserted (cs : List Call) : List String :=
  cs.filterMap fun
    | .insert n => some n
    | _ => none

/-- The names that are inserted, in order of their first insertion. -/
def firsts (cs : List Call) : List String := (inserted cs).eraseDups

/-- Each call that refers to a symbol by its number refers to one that was inserted before. -/
def Valid (cs : List Call) : Prop :=
  ∀ before c, before ++ [c] <+: cs → c.InRange (firsts before).length

/-- A name was inserted for the first time after the last sort. -/
def Unsorted (cs : List Call) : Prop :=
  ∃ before n later, cs = before ++ .insert n :: later ∧ .insert n ∉ before ∧ .sort ∉ later

section Histories

variable {cs : List Call} {c : Call} {n : String}

/-- The names that are inserted are those of the insertions. -/
theorem mem_inserted : n ∈ inserted cs ↔ .insert n ∈ cs := by
  simp only [inserted, List.mem_filterMap]
  constructor
  · rintro ⟨c, hc, h⟩
    cases c with
    | insert m =>
      cases h
      exact hc
    | _ => cases h
  · intro h
    exact ⟨_, h, rfl⟩

/-- Every name that is inserted has a first insertion. -/
theorem mem_firsts : n ∈ firsts cs ↔ .insert n ∈ cs := by
  rw [firsts, List.mem_eraseDups, mem_inserted]

/-- One more call adds to the names what it would add to a table. -/
theorem firsts_concat (cs : List Call) (c : Call) : firsts (cs ++ [c]) = c.addTo (firsts cs) := by
  cases c with
  | insert n => simp [firsts, inserted, eraseDups_concat, Call.addTo]
  | _ => simp [firsts, inserted, Call.addTo]

/-- Without calls nothing is referred to. -/
theorem valid_nil : Valid [] := by
  intro before c h
  simp at h

/-- One more call has to refer to what was inserted before. -/
theorem valid_concat : Valid (cs ++ [c]) ↔ Valid cs ∧ c.InRange (firsts cs).length :=
  forall_prefix_concat

/-- Without calls nothing is unsorted. -/
theorem not_unsorted_nil : ¬ Unsorted [] := by
  rintro ⟨before, n, later, h, -⟩
  simp at h

/-- One more call leaves the names unsorted if it inserts a new one, or if they were and it does not
sort them. -/
theorem unsorted_concat :
    Unsorted (cs ++ [c]) ↔
      match c with
      | .insert n => n ∉ firsts cs ∨ Unsorted cs
      | .sort => False
      | _ => Unsorted cs := by
  -- the insertion in question is the last call, or it stands before that
  have hsplit : Unsorted (cs ++ [c]) ↔
      (∃ n, c = .insert n ∧ .insert n ∉ cs) ∨ c ≠ .sort ∧ Unsorted cs := by
    constructor
    · rintro ⟨before, n, later, h, hbefore, hlater⟩
      rcases List.eq_nil_or_concat' later with rfl | ⟨later, d, rfl⟩
      · obtain ⟨rfl, rfl⟩ := List.append_singleton_inj.mp h
        exact .inl ⟨n, rfl, hbefore⟩
      · rw [← List.cons_append, ← List.append_assoc] at h
        obtain ⟨rfl, rfl⟩ := List.append_singleton_inj.mp h
        rw [List.mem_append, List.mem_singleton, not_or] at hlater
        exact .inr ⟨Ne.symm hlater.2, before, n, later, rfl, hbefore, hlater.1⟩
    · -- the other way round, a call that is no sort may follow
      rintro (⟨n, rfl, hn⟩ | ⟨hc, before, n, later, rfl, hbefore, hlater⟩)
      · exact ⟨cs, n, [], rfl, hn, List.not_mem_nil⟩
      · refine ⟨before, n, later ++ [c], by simp, hbefore, ?_⟩
        rw [List.mem_append, List.mem_singleton, not_or]
        exact ⟨hlater, Ne.symm hc⟩
  rw [hsplit]
  cases c <;> simp [mem_firsts]

end Histories

/-! ## Tables and their histories -/

/-- A table and its answers agree with the calls that were made. -/
structure Tracks (cs : List Call) (answers : List Answer) (t : SymbolTable) : Prop where
  consistent : t.Consistent
  names : t.names = firsts cs
  stale : t.stale = true ↔ Unsorted cs
  length : answers.length = cs.length
  insert (before : List Call) (n : String) (h : before ++ [.insert n] <+: cs) :
    answers[before.length]? = (t.find? n).map Answer.id
  get (before : List Call) (n : String) (h : before ++ [.get n] <+: cs) :
    answers[before.length]? = some (.found (if n ∈ firsts before then t.find? n else none))

/-- The empty table agrees with the empty history. -/
theorem tracks_nil : Tracks [] [] {} where
  consistent := consistent_empty
  names := rfl
  stale := by simp [not_unsorted_nil]
  length := rfl
  insert := by simp
  get := by simp

section Tracks

variable {t t' : SymbolTable} {cs : List Call} {c : Call} {answers : List Answer}

/-- A view is stale behind a new name, and fresh behind a sort. -/
theorem stale_after : (t.after c).stale = true ↔
    match c with
    | .insert n => n ∉ t.names ∨ t.stale = true
    | .sort => False
    | _ => t.stale = true := by
  cases c with
  | insert n =>
    cases h : t.find? n with
    | some id =>
      have hmem : n ∈ t.names := List.mem_of_getElem? (names_of_find? h)
      simp [after, insert_of_find? h, hmem]
    | none =>
      have hn := find?_eq_none_iff.mp h
      simp [after, insert_of_notMem hn, hn, added]
  | get n => rfl
  | setKind id kind => simp [after, stale_setKind]
  | sort => simp [after]

/-- An earlier answer is not touched by a later one. -/
theorem Tracks.getElem?_concat (h : Tracks cs answers t) {before : List Call} {d : Call}
    (hd : before ++ [d] <+: cs) (a : Answer) :
    (answers ++ [a])[before.length]? = answers[before.length]? := by
  apply List.getElem?_append_left
  have hlength := hd.length_le
  rw [List.length_append, List.length_singleton, ← h.length] at hlength
  exact hlength

/-- A call that refers to a known symbol keeps a table in step with its history. -/
theorem Tracks.call (h : Tracks cs answers t) (hc : c.InRange t.size) :
    Tracks (cs ++ [c]) (answers ++ [t.answer c]) (t.after c) := by
  have hprefix := names_prefix_after hc
  have hafter := h.consistent.after hc
  -- what was inserted before is found where it was
  have hkept {n : String} (hn : n ∈ firsts cs) : (t.after c).find? n = t.find? n := by
    rw [← h.names] at hn
    obtain ⟨id, hid⟩ := Option.isSome_iff_exists.mp (find?_isSome_iff.mpr hn)
    rw [hid, find?_of_prefix_names hprefix hid]
  refine ⟨hafter, ?_, ?_, ?_, ?_, ?_⟩
  · rw [names_after hc, firsts_concat, h.names]
  · rw [stale_after, unsorted_concat]
    cases c <;> simp [h.names, h.stale]
  · simp [h.length]
  · intro before n hbefore
    rcases List.prefix_concat_iff.mp hbefore with hlast | hbefore
    · obtain ⟨rfl, rfl⟩ := List.append_singleton_inj.mp hlast
      have hid := hafter.find?_eq_some_iff.mpr (t.names_insert_fst n)
      simp [← h.length, hid, answer]
    · -- the answer was given before, and the number is still the same
      have hn : n ∈ firsts cs := mem_firsts.mpr (hbefore.subset (by simp))
      rw [h.getElem?_concat hbefore, h.insert before n hbefore, hkept hn]
  · intro before n hbefore
    rcases List.prefix_concat_iff.mp hbefore with hlast | hbefore
    · obtain ⟨rfl, rfl⟩ := List.append_singleton_inj.mp hlast
      have hfind : t.find? n = if n ∈ firsts before then t.find? n else none := by
        split
        next => rfl
        next hn => exact find?_eq_none_iff.mpr (h.names ▸ hn)
      simp [← h.length, answer, after, ← hfind]
    · rw [h.getElem?_concat hbefore, h.get before n hbefore]
      split
      next hn =>
        have hearlier : before <+: cs := (List.prefix_append _ _).trans hbefore
        rw [hkept (mem_firsts.mpr (hearlier.subset (mem_firsts.mp hn)))]
      next => rfl

/-- A history is answered when its calls refer to known symbols, and refused otherwise. -/
theorem tracks_calls (cs : List Call) :
    (∃ answers t, calls {} cs = .ok (answers, t) ∧ Valid cs ∧ Tracks cs answers t) ∨
      calls {} cs = .error .outOfRange ∧ ¬ Valid cs := by
  induction cs using List.reverseRecOn with
  | nil => exact .inl ⟨[], {}, rfl, valid_nil, tracks_nil⟩
  | append_singleton cs c ih =>
    rw [calls_append, valid_concat]
    rcases ih with ⟨answers, t, hok, hvalid, h⟩ | ⟨herror, hvalid⟩
    · rw [← h.names, length_names, hok, ok_bind]
      simp only [calls]
      -- the last call is refused just if it refers to no symbol
      by_cases hc : c.InRange t.size
      · refine .inl ⟨answers ++ [t.answer c], t.after c, ?_, ⟨hvalid, hc⟩, h.call hc⟩
        rw [h.consistent.call_eq_ok hc]
        rfl
      · refine .inr ⟨?_, fun h => hc h.2⟩
        rw [call_eq_error hc]
        rfl
    · refine .inr ⟨?_, fun h => hvalid h.1⟩
      rw [herror]
      rfl

end Tracks

/-! ## Interning -/

/-- Names and numbers of a table belong together as its history tells. -/
structure Interned (cs : List Call) (answers : List Answer) (t : SymbolTable) : Prop where
  /-- The symbols are numbered from zero on, in order of first insertion. -/
  numbers (id : SymbolId) : (t.get? id).map Symbol.name = (firsts cs)[id]?
  /-- What is found is the symbol with the name. -/
  found (n : String) (id : SymbolId) :
    t.find? n = some id ↔ (t.get? id).map Symbol.name = some n
  missing (n : String) : t.find? n = none ↔ .insert n ∉ cs
  distinct (n m : String) (id : SymbolId) (hn : t.find? n = some id) (hm : t.find? m = some id) :
    n = m
  repeated (n : String) (id : SymbolId) (h : t.find? n = some id) : t.insert n = (id, t)
  /-- Each insertion of a name was answered with its number, the first one as all others. -/
  inserts (before : List Call) (n : String) (h : before ++ [.insert n] <+: cs) :
    answers[before.length]? = (t.find? n).map Answer.id
  /-- Each lookup was answered with the number of the name, if it had been inserted by then. -/
  gets (before : List Call) (n : String) (h : before ++ [.get n] <+: cs) :
    answers[before.length]? =
      some (.found (if .insert n ∈ before then t.find? n else none))
  /-- Whatever is called from then on, a name keeps its number and a number its name. -/
  kept (later : List Call) (answers' : List Answer) (t' : SymbolTable)
    (h : t.calls later = .ok (answers', t')) (n : String) (id : SymbolId) :
    (t.find? n = some id → t'.find? n = some id) ∧
      ((t.get? id).map Symbol.name = some n → (t'.get? id).map Symbol.name = some n)
  terminals : t.terminals = t.symbols.countP fun x => x.kind = .terminal
  nonterminals : t.nonterminals = t.symbols.countP fun x => x.kind = .nonterminal
  total : t.terminals + t.nonterminals = t.size
  /-- No count is lowered at zero. -/
  setKind (id : SymbolId) (kind : SymbolKind) (h : id < t.size) :
    Guarded.setKind t id kind = .ok (t.setKind id kind)

/-- Names and numbers of a table that agrees with a history belong together. -/
theorem Tracks.interned {t : SymbolTable} {cs : List Call} {answers : List Answer}
    (h : Tracks cs answers t) : Interned cs answers t where
  numbers id := by rw [← names_getElem?, h.names]
  found n id := by rw [h.consistent.find?_eq_some_iff, names_getElem?]
  missing n := by rw [find?_eq_none_iff, h.names, mem_firsts]
  distinct n m id hn hm := by
    have hsome := (names_of_find? hn).symm.trans (names_of_find? hm)
    exact Option.some_inj.mp hsome
  repeated n id hn := insert_of_find? hn
  inserts := h.insert
  gets before n hbefore := by
    simp only [h.get before n hbefore, mem_firsts]
  kept later answers' t' hlater n id := by
    have hprefix := h.consistent.names_prefix hlater
    refine ⟨find?_of_prefix_names hprefix, ?_⟩
    rw [← names_getElem?, ← names_getElem?]
    intro hid
    -- names are added at the end, so a number below keeps its name
    obtain ⟨added, hadded⟩ := hprefix
    rw [← hadded, List.getElem?_append_left (List.getElem?_eq_some_iff.mp hid).1, hid]
  terminals := by
    rw [h.consistent.terminals, kinds, List.count, List.countP_map]
    rfl
  nonterminals := by
    rw [h.consistent.nonterminals, kinds, List.count, List.countP_map]
    rfl
  total := h.consistent.counts
  setKind id kind hid := by
    obtain ⟨x, hx⟩ := exists_get?_of_lt hid
    exact h.consistent.setKind_eq_ok hx kind

/-- Interning is a bijection with exact counts. A history is refused only for a number that no
symbol has when it is used; after any other one names and numbers belong together as it tells. -/
theorem interned_calls (cs : List Call) :
    (∃ answers t, calls {} cs = .ok (answers, t) ∧ Valid cs ∧ Interned cs answers t) ∨
      calls {} cs = .error .outOfRange ∧ ¬ Valid cs := by
  rcases tracks_calls cs with ⟨answers, t, hok, hvalid, h⟩ | hrefused
  · exact .inl ⟨answers, t, hok, hvalid, h.interned⟩
  · exact .inr hrefused

end YaccGrammar.SymbolTable
