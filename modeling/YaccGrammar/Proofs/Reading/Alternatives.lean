import YaccGrammar.Proofs.Reading.Replay

/-!
# Rules and alternatives

The rules of the grammar are the alternatives that were closed, in order, whatever the tokens were
and however many of them were out of place. Only blank alternatives in front of a bar leave no
rule.

## Main statement

- `rules_eq_kept`: what a list of tokens leaves behind in rules and flags.
-/

namespace YaccGrammar

open Reading

/-- A rule told by names. -/
def Grammar.alternative (g : Grammar) (r : Rule) : Alternative where
  lhs := g.name r.lhs
  symbols := r.rhs.map g.name
  code := r.code.map CodeBlock.code
  prec := r.precSymbol.map g.name

namespace Reading

/-- An optional value that is related by a function is the image. -/
theorem map_eq_of_rel {α β : Type} {f : α → β} {o : Option α} {o' : Option β}
    (h : Option.Rel (fun a b => f a = b) o o') : o.map f = o' := by
  cases h with
  | none => rfl
  | some h => exact congrArg some h

/-- A rule that tells an alternative by numbers tells it by names. -/
theorem Matches.alternative_eq {g : Grammar} {r : Rule} {a : Alternative}
    (hr : Matches g.table.names r a) : g.alternative r = a := by
  have hname : ∀ id n, Numbers g.table.names id n → g.name id = n :=
    fun id n hid => SymbolTable.name_eq_of_names hid
  obtain ⟨lhs, symbols, code, prec⟩ := a
  simp only [Grammar.alternative, Alternative.mk.injEq]
  refine ⟨hname _ _ hr.lhs, ?_, hr.code, ?_⟩
  · have hrhs := hr.rhs.imp hname
    rwa [← List.forall₂_map_left_iff, List.forall₂_eq_eq_eq] at hrhs
  · exact map_eq_of_rel (rel_imp hname hr.prec)

namespace Agrees

variable {h : History} {s : State}

/-- The rules tell all alternatives that are kept, and last the open one. -/
theorem map_alternative (hs : Agrees h s) :
    s.grammar.rules.map s.grammar.alternative = h.kept ++ h.current.toList := by
  have hrules := hs.rules
  rw [← hs.names] at hrules
  -- what agrees by numbers is equal by names
  have heq := hrules.imp fun r a => Matches.alternative_eq
  rwa [← List.forall₂_map_left_iff, List.forall₂_eq_eq_eq] at heq

/-- A symbol is flagged if a bar closed an empty alternative of it. -/
theorem nullable_iff (hs : Agrees h s) {x : Symbol} (hx : x ∈ s.grammar.table.symbols) :
    x.nullable = true ↔ ∃ c ∈ h.closed,
      c.byBar = true ∧ c.alternative.symbols = [] ∧ c.alternative.lhs = x.name := by
  obtain ⟨id, hid⟩ := List.getElem?_of_mem hx
  -- the flag is what the history makes of the name
  have hflag : x.nullable = h.flags x.name := congrArg Symbol.nullable (hs.symbol_of_get? hid)
  rw [hflag, History.flags, List.any_eq_true]
  simp [and_assoc]

end Agrees

/-- Whatever the tokens are: a rule is open exactly inside an alternative. While none is open, the
rules are the closed alternatives in order, without the blank ones in front of a bar. And a symbol
is flagged exactly if a bar closed one of its empty alternatives. -/
theorem rules_eq_kept (file : String) (ts : List Token) :
    let s := consumeAll ts (.initial file)
    let h := History.ofTokens file ts
    s.openRule.isSome = h.current.isSome ∧
    (s.openRule = none → s.grammar.rules.map s.grammar.alternative =
      (h.closed.filter fun c => !(c.alternative.isBlank && c.byBar)).map Closed.alternative) ∧
    ∀ x ∈ s.grammar.table.symbols, x.nullable = true ↔ ∃ c ∈ h.closed,
      c.byBar = true ∧ c.alternative.symbols = [] ∧ c.alternative.lhs = x.name := by
  intro s h
  have hs : Agrees h s := agrees_consumeAll file ts
  refine ⟨?_, fun hopen => ?_, fun x hx => hs.nullable_iff hx⟩
  · rw [hs.openRule, Option.isSome_map]
  · -- no rule is open, so all rules tell alternatives that are closed
    have hcurrent : h.current = none := by
      rw [hs.openRule, Option.map_eq_none_iff] at hopen
      exact hopen
    rw [hs.map_alternative, hcurrent, Option.toList_none, List.append_nil]
    rfl

end Reading

end YaccGrammar
