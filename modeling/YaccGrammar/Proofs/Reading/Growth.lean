import YaccGrammar.Proofs.Reading.Change

/-!
# Reading only adds

What was read stays what it is. Diagnostics, symbols and rules are added behind those that are
there; only the open rule is still filled up, and a code or a start symbol that was set is never set
again.
Behind the declarations nothing that was declared changes, and in the trailing code nothing but that
code.

## Main statements

- `grows_of_changes`, `settled_of_changes`: what the changes of a state keep.
- `reading_only_adds`: what any further tokens keep.
-/

namespace YaccGrammar

namespace SymbolTable

/-! ## Tables -/

/-- Symbols keep their numbers, their names and their flags. -/
def GrowsTo (t t' : SymbolTable) : Prop :=
  ∀ id x, t.get? id = some x →
    ∃ y, t'.get? id = some y ∧ y.name = x.name ∧ (x.nullable = true → y.nullable = true)

/-- Precedence, associativity and tag of a symbol; nothing is declared of a symbol that is not
there. -/
def declared (t : SymbolTable) (id : SymbolId) : Option Nat × Assoc × Option String :=
  ((t.get? id).map fun x => (x.precedence, x.assoc, x.tag)).getD (none, .unknown, none)

variable {t t' t'' : SymbolTable}

/-- A table grows into itself. -/
theorem GrowsTo.refl (t : SymbolTable) : t.GrowsTo t := fun _ x hx => ⟨x, hx, rfl, id⟩

/-- Growth in two steps is growth. -/
theorem GrowsTo.trans (h : t.GrowsTo t') (h' : t'.GrowsTo t'') : t.GrowsTo t'' := by
  intro id x hx
  obtain ⟨y, hy, hname, hflag⟩ := h id x hx
  obtain ⟨z, hz, hname', hflag'⟩ := h' id y hy
  exact ⟨z, hz, hname'.trans hname, fun hx => hflag' (hflag hx)⟩

/-- A change of a symbol that keeps its name and its flag is growth. -/
theorem growsTo_modify (t : SymbolTable) (id : SymbolId) {f : Symbol → Symbol}
    (hname : ∀ x, (f x).name = x.name)
    (hflag : ∀ x, x.nullable = true → (f x).nullable = true) : t.GrowsTo (t.modify id f) := by
  intro s x hx
  rw [get?_modify]
  split
  · exact ⟨f x, by rw [hx, Option.map_some], hname x, hflag x⟩
  · exact ⟨x, hx, rfl, fun h => h⟩

/-- A new kind of a symbol is growth. -/
theorem growsTo_setKind (t : SymbolTable) (id : SymbolId) (kind : SymbolKind) :
    t.GrowsTo (t.setKind id kind) := by
  have hmodify := growsTo_modify t id (f := fun x => { x with kind }) (fun _ => rfl) fun _ h => h
  unfold setKind
  split
  · exact .refl t
  split
  · exact .refl t
  · -- the counts do not matter to a lookup
    cases kind <;> exact hmodify

/-- A new symbol stands behind all others. -/
theorem growsTo_insert (t : SymbolTable) (n : String) : t.GrowsTo (t.insert n).2 :=
  fun _ x hx => ⟨x, get?_insert_of_get? hx n, rfl, id⟩

/-- A change that keeps precedence, associativity and tag declares nothing. -/
theorem declared_modify (t : SymbolTable) (id : SymbolId) {f : Symbol → Symbol}
    (hf : ∀ x, ((f x).precedence, (f x).assoc, (f x).tag) = (x.precedence, x.assoc, x.tag))
    (s : SymbolId) : (t.modify id f).declared s = t.declared s := by
  simp only [declared, get?_modify]
  split
  · simp only [Option.map_map, Function.comp_def, hf]
  · rfl

/-- Nothing is declared of a new symbol. -/
theorem declared_insert (t : SymbolTable) (n : String) (s : SymbolId) :
    (t.insert n).2.declared s = t.declared s := by
  cases hx : t.get? s with
  -- an old symbol keeps its number
  | some x => simp only [declared, hx, get?_insert_of_get? hx n]
  | none =>
    cases hy : (t.insert n).2.get? s with
    | none => simp only [declared, hx, hy]
    | some y =>
      rcases get?_insert hy with hold | ⟨-, rfl⟩
      · rw [hx] at hold
        cases hold
      · simp [declared, hx, hy, Symbol.ofName]

end SymbolTable

/-! ## Rules -/

namespace Rule.GrowsTo

variable {r r' r'' : Rule}

/-- A rule grows into itself. -/
theorem refl (r : Rule) : r.GrowsTo r := ⟨rfl, rfl, rfl, List.prefix_refl _, fun _ => rfl⟩

/-- Growth in two steps is growth. -/
theorem trans (h : r.GrowsTo r') (h' : r'.GrowsTo r'') : r.GrowsTo r'' where
  lhs := h'.lhs.trans h.lhs
  line := h'.line.trans h.line
  nextLhs := h'.nextLhs.trans h.nextLhs
  rhs := h.rhs.trans h'.rhs
  code := fun hcode => (h'.code (h.code hcode ▸ hcode)).trans (h.code hcode)

end Rule.GrowsTo

namespace Reading

/-! ## Growth -/

/-- Whatever is there stays there. -/
abbrev Keeps {α : Type} (o o' : Option α) : Prop := ∀ a, o = some a → o' = some a

/-- What reading keeps of a state. Of the rules only the one that is open is still written to; later
on that one or a new one is open, or none. -/
structure Grows (s s' : State) : Prop where
  errors : s.errors <+: s'.errors
  table : s.grammar.table.GrowsTo s'.grammar.table
  rule : ∀ k r, s.grammar.rule? k = some r →
    ∃ r', s'.grammar.rule? k = some r' ∧ r.GrowsTo r' ∧ (s.openRule ≠ some k → r' = r)
  importCode : Keeps s.grammar.importCode s'.grammar.importCode
  unionCode : Keeps s.grammar.unionCode s'.grammar.unionCode
  declaredStart : Keeps s.grammar.declaredStart s'.grammar.declaredStart
  opened : ∀ k, s'.openRule = some k → s.openRule = some k ∨ s.grammar.rules.length ≤ k

namespace Grows

variable {s s' s'' : State}

/-- What is kept in two steps is kept. -/
theorem trans (h : Grows s s') (h' : Grows s' s'') : Grows s s'' where
  errors := h.errors.trans h'.errors
  table := h.table.trans h'.table
  rule := by
    intro k r hr
    obtain ⟨r', hr', hgrows, heq⟩ := h.rule k r hr
    obtain ⟨r'', hr'', hgrows', heq'⟩ := h'.rule k r' hr'
    refine ⟨r'', hr'', hgrows.trans hgrows', fun hclosed => ?_⟩
    -- a rule that is not open is never opened again
    have hstill : s'.openRule ≠ some k := by
      intro hopen
      rcases h.opened k hopen with hopen | hnew
      · exact hclosed hopen
      · exact Nat.not_lt.mpr hnew (List.getElem?_eq_some_iff.mp hr).1
    rw [heq' hstill, heq hclosed]
  importCode := fun c hc => h'.importCode c (h.importCode c hc)
  unionCode := fun c hc => h'.unionCode c (h.unionCode c hc)
  declaredStart := fun id hid => h'.declaredStart id (h.declaredStart id hid)
  opened := by
    intro k hk
    rcases h'.opened k hk with hk | hk
    · exact h.opened k hk
    · refine .inr (Nat.le_trans ?_ hk)
      -- every old rule is still there
      by_contra hlt
      obtain ⟨r, hr⟩ : ∃ r, s.grammar.rule? s'.grammar.rules.length = some r :=
        ⟨_, List.getElem?_eq_getElem (Nat.not_le.mp hlt)⟩
      obtain ⟨r', hr', -⟩ := h.rule _ r hr
      exact Nat.lt_irrefl _ (List.getElem?_eq_some_iff.mp hr').1

/-- A change that concerns neither rules nor codes nor the start symbol. -/
theorem of_table (herrors : s.errors <+: s'.errors)
    (htable : s.grammar.table.GrowsTo s'.grammar.table)
    (hrest : { s'.grammar with table := {}, trailingCode := none } =
      { s.grammar with table := {}, trailingCode := none })
    (hopen : s'.openRule = s.openRule ∨ s'.openRule = none) : Grows s s' := by
  simp only [Grammar.mk.injEq, true_and, and_true] at hrest
  -- all parts of the grammar but the table are the same
  obtain ⟨hrules, hstart, himport, hunion⟩ := hrest
  refine ⟨herrors, htable, fun k r hr => ⟨r, ?_, .refl r, fun _ => rfl⟩, ?_, ?_, ?_, ?_⟩
  · rw [Grammar.rule?, hrules]
    exact hr
  · exact fun c hc => himport.trans hc
  · exact fun c hc => hunion.trans hc
  · exact fun id hid => hstart.trans hid
  · intro k hk
    rcases hopen with hopen | hopen
    · exact .inl (hopen ▸ hk)
    · rw [hopen] at hk
      cases hk

theorem refl (s : State) : Grows s s :=
  .of_table (List.prefix_refl _) (.refl _) rfl (.inl rfl)

/-- The open rule is filled up. -/
theorem fill {k : RuleId} {f : Rule → Rule} (hopen : s.openRule = some k)
    (hf : ∀ r, s.grammar.rule? k = some r → r.GrowsTo (f r)) :
    Grows s (s.modifyGrammar (·.modifyRule k f)) where
  errors := List.prefix_refl _
  table := .refl _
  rule := by
    intro j r hr
    -- the rule is the open one, or it is left alone
    by_cases hj : j = k
    · subst hj
      refine ⟨f r, ?_, hf r hr, fun hclosed => absurd hopen hclosed⟩
      simp only [State.modifyGrammar, Grammar.rule?, Grammar.modifyRule, List.getElem?_modify]
      rw [show s.grammar.rules[j]? = some r from hr]
      simp
    · refine ⟨r, ?_, .refl r, fun _ => rfl⟩
      simp only [State.modifyGrammar, Grammar.rule?, Grammar.modifyRule, List.getElem?_modify]
      rw [show s.grammar.rules[j]? = some r from hr]
      simp [Ne.symm hj]
  importCode := fun _ hc => hc
  unionCode := fun _ hc => hc
  declaredStart := fun _ hid => hid
  opened := fun _ hk => .inl hk

/-- A new rule stands behind all others. -/
theorem openNew (s : State) (lhs : SymbolId) (line : Nat) : Grows s (openNew lhs line s) where
  errors := List.prefix_refl _
  table := SymbolTable.growsTo_modify _ _ (fun _ => rfl) fun _ h => h
  rule := by
    intro k r hr
    refine ⟨r, ?_, .refl r, fun _ => rfl⟩
    simp only [Reading.openNew, Grammar.addRule, Grammar.rule?]
    -- the old rules keep their numbers
    rw [List.getElem?_append_left (List.getElem?_eq_some_iff.mp hr).1]
    exact hr
  importCode := fun _ hc => hc
  unionCode := fun _ hc => hc
  declaredStart := fun _ hid => hid
  opened := fun _ hk => .inr (Option.some.inj hk).le

end Grows

variable {b : Bool} {s s' : State}

/-- Every change of a state keeps what was read. -/
theorem grows_of_change (h : Change b s s') : Grows s s' := by
  cases h with
  | turn => exact .of_table (List.prefix_refl _) (.refl _) rfl (.inl rfl)
  | close => exact .of_table (List.prefix_refl _) (.refl _) rfl (.inr rfl)
  | report => exact .of_table (List.prefix_append _ _) (.refl _) rfl (.inl rfl)
  | intern _ n =>
    exact .of_table (List.prefix_refl _) (SymbolTable.growsTo_insert _ n) rfl (.inl rfl)
  | flag _ id =>
    exact .of_table (List.prefix_refl _)
      (SymbolTable.growsTo_modify _ id (fun _ => rfl) fun _ _ => rfl) rfl (.inl rfl)
  | openNew _ lhs line => exact .openNew s lhs line
  | fill hopen hf => exact .fill hopen hf
  | trailingCode => exact .of_table (List.prefix_refl _) (.refl _) rfl (.inl rfl)
  | symbol _ id hname hnullable =>
    exact .of_table (List.prefix_refl _)
      (SymbolTable.growsTo_modify _ id hname fun x hx => (hnullable x).trans hx) rfl (.inl rfl)
  | kind _ id kind =>
    exact .of_table (List.prefix_refl _) (SymbolTable.growsTo_setKind _ id kind) rfl (.inl rfl)
  | rank => exact .of_table (List.prefix_refl _) (.refl _) rfl (.inl rfl)
  -- a code or a start symbol is set where there was none
  | importCode code hnone =>
    exact { Grows.refl s with importCode := fun c hc => absurd (hnone.symm.trans hc) nofun }
  | unionCode code hnone =>
    exact { Grows.refl s with unionCode := fun c hc => absurd (hnone.symm.trans hc) nofun }
  | start id hnone =>
    exact { Grows.refl s with declaredStart := fun c hc => absurd (hnone.symm.trans hc) nofun }

/-- Changes in a row keep what was read. -/
theorem grows_of_changes (h : Changes b s s') : Grows s s' := by
  induction h with
  | refl => exact .refl s
  | tail _ hchange ih => exact ih.trans (grows_of_change hchange)

/-! ## Declarations -/

/-- What the declarations have said is settled. -/
structure Settled (s s' : State) : Prop where
  nextPrecedence : s'.nextPrecedence = s.nextPrecedence
  declaredStart : s'.grammar.declaredStart = s.grammar.declaredStart
  importCode : s'.grammar.importCode = s.grammar.importCode
  unionCode : s'.grammar.unionCode = s.grammar.unionCode
  declared : ∀ id, s'.grammar.table.declared id = s.grammar.table.declared id

theorem Settled.refl (s : State) : Settled s s := ⟨rfl, rfl, rfl, rfl, fun _ => rfl⟩

/-- What is settled in two steps is settled. -/
theorem Settled.trans {s'' : State} (h : Settled s s') (h' : Settled s' s'') : Settled s s'' where
  nextPrecedence := h'.nextPrecedence.trans h.nextPrecedence
  declaredStart := h'.declaredStart.trans h.declaredStart
  importCode := h'.importCode.trans h.importCode
  unionCode := h'.unionCode.trans h.unionCode
  declared := fun id => (h'.declared id).trans (h.declared id)

/-- A change that declares nothing settles what was declared. -/
theorem settled_of_change (h : Change false s s') : Settled s s' := by
  -- the changes that declare something are not among these
  cases h with
  | turn | close | report | fill | trailingCode => exact ⟨rfl, rfl, rfl, rfl, fun _ => rfl⟩
  | intern _ n => exact ⟨rfl, rfl, rfl, rfl, SymbolTable.declared_insert _ n⟩
  | flag _ id => exact ⟨rfl, rfl, rfl, rfl, SymbolTable.declared_modify _ id fun _ => rfl⟩
  | openNew _ lhs =>
    exact ⟨rfl, rfl, rfl, rfl, SymbolTable.declared_modify _ lhs fun _ => rfl⟩

/-- Changes in a row that declare nothing settle what was declared. -/
theorem settled_of_changes (h : Changes false s s') : Settled s s' := by
  induction h with
  | refl => exact .refl s
  | tail _ hchange ih => exact ih.trans (settled_of_change hchange)

/-! ## Reactions -/

/-- A reaction keeps what was read. -/
theorem grows_react (hs : Tidy s) (t : Token) : Grows s (react t s).state :=
  grows_of_changes (changes_react hs t)

/-- Behind the declarations a reaction settles what was declared. -/
theorem settled_react (hs : 2 ≤ s.phase.part) (t : Token) : Settled s (react t s).state := by
  have hchanges := changes_react (.of_two_le_part hs) t
  rw [decide_eq_false (Nat.not_lt.mpr hs)] at hchanges
  exact settled_of_changes hchanges

/-! ## Further tokens -/

/-- The state with other trailing code. -/
def State.withTrailingCode (s : State) (code : Option CodeBlock) : State :=
  s.modifyGrammar fun g => { g with trailingCode := code }

/-- Whatever tokens follow, what was read is kept. -/
theorem grows_consumeAll (hs : Tidy s) (us : List Token) : Grows s (consumeAll us s) := by
  let P (s' : State) : Prop := Tidy s' ∧ Grows s s'
  have hreact (t : Token) (s' : State) (hs' : P s') : P (react t s').state :=
    ⟨tidy_react hs'.1 t, hs'.2.trans (grows_react hs'.1 t)⟩
  exact (consumeAll_induction hreact us ⟨hs, .refl s⟩ : P _).2

/-- Behind the declarations reading stays behind them and settles what was declared. -/
theorem settled_consumeAll (hs : 2 ≤ s.phase.part) (us : List Token) :
    2 ≤ (consumeAll us s).phase.part ∧ Settled s (consumeAll us s) := by
  let P (s' : State) : Prop := 2 ≤ s'.phase.part ∧ Settled s s'
  have hreact (t : Token) (s' : State) (hs' : P s') : P (react t s').state :=
    ⟨hs'.1.trans (part_react t s'), hs'.2.trans (settled_react hs'.1 t)⟩
  exact (consumeAll_induction hreact us ⟨hs, .refl s⟩ : P _)

/-- In the trailing code reading changes nothing but that code. -/
theorem consumeAll_of_trailer (hs : s.phase = .trailer) (us : List Token) :
    ∃ code, consumeAll us s = s.withTrailingCode code := by
  let P (s' : State) : Prop := ∃ code, s' = s.withTrailingCode code
  have hreact (t : Token) (s' : State) (hs' : P s') : P (react t s').state := by
    obtain ⟨code, rfl⟩ := hs'
    have hphase : (s.withTrailingCode code).phase = .trailer := hs
    rw [react, hphase]
    exact ⟨_, rfl⟩
  exact consumeAll_induction hreact us ⟨s.grammar.trailingCode, rfl⟩

/-- Reading only adds, whatever the tokens were and whatever tokens follow. No diagnostic, symbol or
rule is taken back or moved, and of the rules only the open one is written to. Once the declarations
are over, reading never returns to them and nothing changes that they have said; and once the
trailing code is reached, nothing changes but that code. -/
theorem reading_only_adds (file : String) (ts us : List Token) :
    let s := consumeAll ts (.initial file)
    let s' := consumeAll us s
    Grows s s' ∧ (2 ≤ s.phase.part → 2 ≤ s'.phase.part ∧ Settled s s') ∧
      (s.phase = .trailer → ∃ code, s' = s.withTrailingCode code) :=
  ⟨grows_consumeAll (tidy_consumeAll (tidy_initial file) ts) us,
    fun hpart => settled_consumeAll hpart us, fun htrailer => consumeAll_of_trailer htrailer us⟩

end Reading

end YaccGrammar
