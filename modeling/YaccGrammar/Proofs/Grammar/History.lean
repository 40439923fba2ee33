import YaccGrammar.Proofs.Grammar.Intact

/-!
# Histories of grammars

A grammar is built by calls: names are inserted, symbols and rules are written, rules are added, and
the table is sorted and the grammar analysed at any time. A call refers to symbols and rules by
their numbers, and is refused if one of them has not been given out yet. All other calls are carried
out, and leave the grammar intact, with the names and the left-hand sides that the history tells.

## Main statements

- `Intact.perform_eq_ok`: a call that refers to known numbers meets no fault.
- `Intact.after`, `names_after`, `lhs_after`: what one call keeps, and what it adds.
- `tracks_calls`: what a history keeps.
-/

namespace YaccGrammar.Grammar

open Fault SymbolTable

/-! ## Calls -/

/-- A call of a grammar. -/
inductive Call
  | insert (n : String)
  | setKind (id : SymbolId) (kind : SymbolKind)
  | setSymbol (id : SymbolId) (nullable : Bool) (precedence : Option Nat) (assoc : Assoc)
      (tag : Option String)
  | addRule (lhs : SymbolId) (line : Nat)
  | setRule (id : RuleId) (rhs : List SymbolId) (code : Option CodeBlock)
      (precSymbol : Option SymbolId)
  | setCodes (declaredStart : Option SymbolId)
      (importCode unionCode trailingCode : Option CodeBlock)
  | sort
  | computeNullable
  | backfillPrecedence
  | computeFirstSets
  | analyze
  deriving DecidableEq

namespace Call

/-- The symbols that a call refers to by their numbers. -/
def symbols : Call → List SymbolId
  | setKind id _ => [id]
  | setSymbol id .. => [id]
  | addRule lhs _ => [lhs]
  | setRule _ rhs _ precSymbol => rhs ++ precSymbol.toList
  | setCodes declaredStart .. => declaredStart.toList
  | _ => []

/-- The rules that a call refers to by their numbers. -/
def rules : Call → List RuleId
  | setRule id .. => [id]
  | _ => []

/-- All numbers in a call are among those of the first symbols and the first rules. -/
def InRange (size count : Nat) (c : Call) : Prop :=
  (∀ s ∈ c.symbols, s < size) ∧ ∀ k ∈ c.rules, k < count

instance (size count : Nat) (c : Call) : Decidable (c.InRange size count) :=
  inferInstanceAs (Decidable (_ ∧ _))

/-- The names after a call; only an insertion adds one. -/
def addTo (names : List String) : Call → List String
  | insert n => if n ∈ names then names else names ++ [n]
  | _ => names

/-- The left-hand side of the rule that a call adds. -/
def head? : Call → Option SymbolId
  | addRule lhs _ => some lhs
  | _ => none

end Call

/-- Does what is called, with every access guarded. -/
def perform (g : Grammar) : Call → Except Fault Grammar
  | .insert n => return (g.intern n).2
  | .setKind id kind => return { g with table := ← Guarded.setKind g.table id kind }
  | .setSymbol id nullable precedence assoc tag =>
    return { g with table := ← Guarded.modifySymbol g.table id fun x =>
      { x with nullable, precedence, assoc, tag } }
  | .addRule lhs line => return (← Guarded.addRule g lhs line).2
  | .setRule id rhs code precSymbol =>
    Guarded.modifyRule g id fun r => { r with rhs, code, precSymbol }
  | .setCodes declaredStart importCode unionCode trailingCode =>
    return { g with declaredStart, importCode, unionCode, trailingCode }
  | .sort => return { g with table := ← Guarded.sort g.table }
  | .computeNullable => Guarded.settleRules Guarded.visitNullable g
  | .backfillPrecedence => Guarded.backfillPrecedence g
  | .computeFirstSets => Guarded.settleRules Guarded.visitFirst g
  | .analyze => Guarded.analyze g

/-- Makes one call. A number that no symbol or rule has is refused, even if it is only written. -/
def call (g : Grammar) (c : Call) : Except Fault Grammar :=
  if c.InRange g.table.size g.rules.length then g.perform c else .error .outOfRange

/-- Makes one call after the other. -/
def calls (g : Grammar) (cs : List Call) : Except Fault Grammar := cs.foldlM call g

/-- The grammar after a call that is not refused. -/
def after (g : Grammar) : Call → Grammar
  | .insert n => (g.intern n).2
  | .setKind id kind => g.modifyTable (·.setKind id kind)
  | .setSymbol id nullable precedence assoc tag => g.setSymbol id nullable precedence assoc tag
  | .addRule lhs line => (g.addRule lhs line).2
  | .setRule id rhs code precSymbol => g.setRule id rhs code precSymbol
  | .setCodes declaredStart importCode unionCode trailingCode =>
    { g with declaredStart, importCode, unionCode, trailingCode }
  | .sort => g.sorted
  | .computeNullable => (Analysis.computeNullable g).2
  | .backfillPrecedence => Analysis.backfillPrecedence g
  | .computeFirstSets => (Analysis.computeFirstSets g).2
  | .analyze => g.analyze

section Calls

variable {g : Grammar} {c : Call}

/-- The last call of a history is made after all others. -/
theorem calls_concat (g : Grammar) (cs : List Call) (c : Call) :
    g.calls (cs ++ [c]) = g.calls cs >>= fun g' => g'.call c := by
  simp only [calls, List.foldlM_append, List.foldlM_cons, List.foldlM_nil, bind_pure]

/-- A call that refers to known numbers meets no fault. -/
theorem Intact.perform_eq_ok (hg : g.Intact) (hc : c.InRange g.table.size g.rules.length) :
    g.perform c = .ok (g.after c) := by
  -- each call finds the symbol or the rule that it refers to
  cases c with
  | insert | setCodes => rfl
  | setKind id kind =>
    obtain ⟨x, hx⟩ := exists_get?_of_lt (hc.1 id List.mem_cons_self)
    rw [perform, hg.consistent.setKind_eq_ok hx]
    rfl
  | setSymbol id =>
    rw [perform, Guarded.modifySymbol_eq_ok (hc.1 id List.mem_cons_self)]
    rfl
  | addRule lhs line =>
    rw [perform, Guarded.addRule_eq_ok (hc.1 lhs List.mem_cons_self)]
    rfl
  | setRule id =>
    exact Guarded.modifyRule_eq_ok (List.getElem?_eq_getElem (hc.2 id List.mem_cons_self)) _
  | sort =>
    rw [perform, Guarded.sort_eq_ok]
    rfl
  | computeNullable => exact Guarded.computeNullable_eq_ok hg.sound.inRange
  | backfillPrecedence => exact Guarded.backfillPrecedence_eq_ok hg.sound.inRange
  | computeFirstSets => exact Guarded.computeFirstSets_eq_ok hg.sound.inRange
  | analyze => exact Guarded.analyze_eq_ok hg.sound.inRange

/-- What one call keeps. -/
theorem Intact.after (hg : g.Intact) (hc : c.InRange g.table.size g.rules.length) :
    (g.after c).Intact := by
  cases c with
  | insert n => exact hg.intern n
  | setKind id kind => exact hg.setKind (hc.1 id List.mem_cons_self) kind
  | setSymbol id nullable precedence assoc tag =>
    exact hg.setSymbol id nullable precedence assoc tag
  | addRule lhs line => exact hg.addRule (hc.1 lhs List.mem_cons_self) line
  | setRule id rhs code precSymbol =>
    -- the symbols of the call are the right-hand side and what lends the precedence
    apply hg.setRule id (fun s hs => hc.1 s (List.mem_append_left _ hs)) code
    exact fun s hs => hc.1 s (List.mem_append_right _ (Option.mem_toList.mpr hs))
  | setCodes declaredStart importCode unionCode trailingCode =>
    exact hg.setCodes (fun s hs => hc.1 s (Option.mem_toList.mpr hs)) importCode unionCode
      trailingCode
  | sort => exact hg.sorted
  | computeNullable => exact hg.computeNullable
  | backfillPrecedence => exact hg.backfillPrecedence
  | computeFirstSets => exact hg.computeFirstSets
  | analyze => exact hg.analyze

/-- One call adds the name that it inserts, if that is new, and no other. -/
theorem names_after (g : Grammar) (c : Call) : (g.after c).table.names = c.addTo g.table.names := by
  cases c with
  | insert n => exact names_insert _ n
  | setKind id kind => exact names_setKind _ id kind
  | setSymbol id => exact names_modify (fun _ => by rfl) _ id
  | addRule lhs line => exact names_modify (fun _ => by rfl) _ lhs
  | setRule | setCodes | backfillPrecedence => rfl
  | sort => exact names_sort _
  | computeNullable => exact (Enriched.settleRules .visitNullable g).names
  | computeFirstSets => exact (Enriched.settleRules .visitFirst g).names
  | analyze => exact g.enriched_analyze.names

/-- One call adds the left-hand side of the rule that it adds, and no other. -/
theorem lhs_after (g : Grammar) (c : Call) :
    (g.after c).rules.map Rule.lhs = g.rules.map Rule.lhs ++ c.head?.toList := by
  cases c with
  | addRule lhs line => simp [after, addRule, Call.head?]
  | setRule id rhs code precSymbol =>
    exact (map_rules_modifyRule (fun _ => by rfl) g id).trans (List.append_nil _).symm
  | backfillPrecedence => simp [after, Analysis.backfillPrecedence, Call.head?, Function.comp_def]
  | analyze => simp [after, rules_analyze, Call.head?, Function.comp_def]
  | _ => exact (List.append_nil _).symm

end Calls

/-! ## Histories -/

/-- The names that are inserted, in order of their first insertion. -/
def firsts (cs : List Call) : List String :=
  (cs.filterMap fun
    | .insert n => some n
    | _ => none).eraseDups

/-- The left-hand sides of the rules that are added, in this order. -/
def heads (cs : List Call) : List SymbolId := cs.filterMap Call.head?

/-- Each call refers only to symbols and rules that the calls before it have made. -/
def Valid (cs : List Call) : Prop :=
  ∀ before c, before ++ [c] <+: cs → c.InRange (firsts before).length (heads before).length

section Histories

variable {g : Grammar} {cs : List Call} {c : Call}

/-- The last call adds to the names what it adds to any names. -/
theorem firsts_concat (cs : List Call) (c : Call) : firsts (cs ++ [c]) = c.addTo (firsts cs) := by
  cases c with
  | insert n => simp [firsts, eraseDups_concat, Call.addTo]
  | _ => simp [firsts, Call.addTo]

/-- The last call adds to the left-hand sides the one of its rule. -/
theorem heads_concat (cs : List Call) (c : Call) :
    heads (cs ++ [c]) = heads cs ++ c.head?.toList := by
  cases c <;> simp [heads, Call.head?]

/-- A history without calls refers to nothing. -/
theorem valid_nil : Valid [] := by
  intro before c h
  simp at h

/-- A history is valid if it is so up to the last call, and that one refers to known numbers. -/
theorem valid_concat :
    Valid (cs ++ [c]) ↔ Valid cs ∧ c.InRange (firsts cs).length (heads cs).length :=
  forall_prefix_concat

/-- A grammar agrees with the calls that were made. -/
structure Tracks (cs : List Call) (g : Grammar) : Prop where
  intact : g.Intact
  names : g.table.names = firsts cs
  lhs : g.rules.map Rule.lhs = heads cs

/-- The empty grammar is in step with the empty history. -/
theorem tracks_nil : Tracks [] {} where
  intact := intact_empty
  names := rfl
  lhs := rfl

/-- A call that refers to known numbers keeps a grammar in step with its history. -/
theorem Tracks.call (h : Tracks cs g) (hc : c.InRange g.table.size g.rules.length) :
    Tracks (cs ++ [c]) (g.after c) where
  intact := h.intact.after hc
  names := by rw [names_after, firsts_concat, h.names]
  lhs := by rw [lhs_after, heads_concat, h.lhs]

/-- A history is carried out when its calls refer to known numbers, and refused otherwise. -/
theorem tracks_calls (cs : List Call) :
    (∃ g, calls {} cs = .ok g ∧ Valid cs ∧ Tracks cs g) ∨
      calls {} cs = .error .outOfRange ∧ ¬ Valid cs := by
  -- the induction takes the last call, which finds what the others have made
  induction cs using List.reverseRecOn with
  | nil => exact .inl ⟨{}, rfl, valid_nil, tracks_nil⟩
  | append_singleton cs c ih =>
    rw [calls_concat, valid_concat]
    rcases ih with ⟨g, hok, hvalid, h⟩ | ⟨herror, hvalid⟩
    · -- the history tells how many symbols and rules there are
      have hsize : (firsts cs).length = g.table.size := by rw [← h.names, length_names]
      have hcount : (heads cs).length = g.rules.length := by rw [← h.lhs, List.length_map]
      rw [hok, ok_bind, hsize, hcount, call]
      split
      -- the last call refers to known numbers
      next hc =>
        refine .inl ⟨g.after c, ?_, ⟨hvalid, hc⟩, h.call hc⟩
        rw [h.intact.perform_eq_ok hc]
      -- it does not, so it is refused
      next hc => exact .inr ⟨rfl, fun h => hc h.2⟩
    · -- an earlier call was refused already
      rw [herror]
      exact .inr ⟨rfl, fun h => hvalid h.1⟩

end Histories

end YaccGrammar.Grammar
