import Mathlib.Data.List.Forall2
import YaccGrammar.Proofs.Reading.Entries

/-!
# Agreement of states and histories

A state agrees with a history when it holds what the history says: its symbols are those that the
history mentions, each as its entries make it, and its rules are the alternatives of the history,
the last of which may still be open.

## Main statements

- `Agrees.of_core`: the phase and the diagnostics do not matter, except that an alternative is
  open only inside a rule.
- `Agrees.intern`: a state that interns a name agrees with the history that mentions it.
-/

namespace YaccGrammar

/-- A symbol without its place in the chain of rules, which no other field depends on. -/
def Symbol.unlinked (x : Symbol) : Symbol := { x with firstRule := none }

/-- Reading is behind a left-hand side and not behind the semicolon that ends its rule. -/
def Phase.inRule : Phase → Bool
  | colon | ruleBody | precKeyword | precSymbol | afterPrec => true
  | _ => false

namespace Reading

/-! ## Mentioned names -/

/-- All alternatives that were opened. -/
def History.alternatives (h : History) : List Alternative :=
  h.closed.map Closed.alternative ++ h.current.toList

/-- Whatever has an entry or an alternative was mentioned. -/
structure History.Known (h : History) : Prop where
  entry : ∀ e ∈ h.entries, e.name ∈ h.mentions
  lhs : ∀ a ∈ h.alternatives, a.lhs ∈ h.mentions ∧ Name.isNonterminal a.lhs = true

namespace History

/-- The names are those that were mentioned. -/
theorem mem_names {h : History} {n : String} : n ∈ h.names ↔ n ∈ h.mentions := List.mem_eraseDups

/-- Nothing is known about a name that was not mentioned. -/
theorem symbol_eq_ofName {h : History} (hknown : h.Known) {n : String} (hn : n ∉ h.mentions) :
    h.symbol n = Symbol.ofName n := by
  -- a flag is that of a left-hand side, which is mentioned
  have hflags : h.flags n = false := by
    rw [flags, List.any_eq_false]
    intro c hc hflag
    simp only [Bool.and_eq_true, decide_eq_true_eq] at hflag
    have hlhs := hknown.lhs c.alternative (List.mem_append_left _ (List.mem_map_of_mem hc))
    exact hn (hflag.2 ▸ hlhs.1)
  rw [symbol, hflags]
  apply DeclEntry.symbol_eq_ofName
  rintro e he rfl
  exact hn (hknown.entry e he)

end History

/-! ## Agreement -/

/-- Each member of the one list is related to one of the other list. -/
theorem exists_of_mem_left {α β : Type} {R : α → β → Prop} {l : List α} {m : List β}
    (h : List.Forall₂ R l m) {a : α} (ha : a ∈ l) : ∃ b ∈ m, R a b := by
  induction h with
  | nil => cases ha
  | cons hab _ ih =>
    rcases List.mem_cons.mp ha with rfl | ha
    · exact ⟨_, List.mem_cons_self, hab⟩
    · obtain ⟨b, hb, hab⟩ := ih ha
      exact ⟨b, List.mem_cons_of_mem _ hb, hab⟩

/-- The number of a name. -/
abbrev Numbers (names : List String) (id : SymbolId) (n : String) : Prop := names[id]? = some n

/-- A name has one number. -/
theorem eq_of_numbers {h : History} {id id' : SymbolId} {n : String} (hid : Numbers h.names id n)
    (hid' : Numbers h.names id' n) : id = id' :=
  (List.getElem?_inj (List.getElem?_eq_some_iff.mp hid).1 (nodup_eraseDups _)).mp
    (hid.trans hid'.symm)

/-- A rule tells an alternative by numbers. -/
structure Matches (names : List String) (r : Rule) (a : Alternative) : Prop where
  lhs : Numbers names r.lhs a.lhs
  rhs : List.Forall₂ (Numbers names) r.rhs a.symbols
  code : r.code.map CodeBlock.code = a.code
  prec : Option.Rel (Numbers names) r.precSymbol a.prec

/-- The state holds what the history says. -/
structure Agrees (h : History) (s : State) : Prop where
  keyword : s.keyword = h.line.map Prod.fst
  tag : ∀ k tag, h.line = some (k, tag) → s.tag = tag
  symbols : s.grammar.table.symbols.map Symbol.unlinked = h.names.map h.symbol
  stale : 0 < s.grammar.table.size → s.grammar.table.stale = true
  rules : List.Forall₂ (Matches h.names) s.grammar.rules (h.kept ++ h.current.toList)
  openRule : s.openRule = h.current.map fun _ => h.kept.length
  inRule : h.current.isSome = true → s.phase.inRule = true
  nextPrecedence : s.nextPrecedence = (DeclEntry.ranked h.entries).length
  declaredStart : Option.Rel (Numbers h.names) s.grammar.declaredStart (DeclEntry.start? h.entries)
  importCode : s.grammar.importCode.map CodeBlock.code = h.importCode
  unionCode : s.grammar.unionCode.map CodeBlock.code = h.unionCode
  known : h.Known

/-- The initial state agrees with the empty history. -/
theorem agrees_initial (file : String) : Agrees {} (.initial file) where
  keyword := rfl
  tag := fun _ _ h => nomatch h
  symbols := rfl
  stale := fun h => absurd h (Nat.lt_irrefl 0)
  rules := .nil
  openRule := rfl
  inRule := fun h => nomatch h
  nextPrecedence := rfl
  declaredStart := .none
  importCode := rfl
  unionCode := rfl
  known := ⟨by simp, by simp [History.alternatives]⟩

/-- The part of a state that histories tell about, apart from the phase. -/
def State.core (s : State) : State :=
  { s with phase := .preamble, errors := [], grammar := { s.grammar with trailingCode := none } }

namespace Agrees

variable {h : History} {s s' : State}

/-- A state agrees with a history as soon as its core does, and an alternative is open only inside a
rule. -/
theorem of_core (hs : Agrees h s) (hcore : s'.core = s.core)
    (hphase : h.current.isSome = true → s'.phase.inRule = true) : Agrees h s' := by
  -- whatever a history tells about is part of the core
  have htable : s'.grammar.table = s.grammar.table := congrArg (fun s => s.grammar.table) hcore
  have hrules : s'.grammar.rules = s.grammar.rules := congrArg (fun s => s.grammar.rules) hcore
  have hstart : s'.grammar.declaredStart = s.grammar.declaredStart :=
    congrArg (fun s => s.grammar.declaredStart) hcore
  have himport : s'.grammar.importCode = s.grammar.importCode :=
    congrArg (fun s => s.grammar.importCode) hcore
  have hunion : s'.grammar.unionCode = s.grammar.unionCode :=
    congrArg (fun s => s.grammar.unionCode) hcore
  have hkeyword : s'.keyword = s.keyword := congrArg (fun s => s.keyword) hcore
  have htag : s'.tag = s.tag := congrArg (fun s => s.tag) hcore
  have hopen : s'.openRule = s.openRule := congrArg (fun s => s.openRule) hcore
  have hnext : s'.nextPrecedence = s.nextPrecedence := congrArg (fun s => s.nextPrecedence) hcore
  constructor
  · rw [hkeyword, hs.keyword]
  · rw [htag]
    exact hs.tag
  · rw [htable, hs.symbols]
  · rw [htable]
    exact hs.stale
  · rw [hrules]
    exact hs.rules
  · rw [hopen, hs.openRule]
  · exact hphase
  · rw [hnext, hs.nextPrecedence]
  · rw [hstart]
    exact hs.declaredStart
  · rw [himport, hs.importCode]
  · rw [hunion, hs.unionCode]
  · exact hs.known

/-- A history tells nothing about diagnostics. -/
theorem report (hs : Agrees h s) (line : Nat) (problem : Problem) :
    Agrees h (s.report line problem) :=
  hs.of_core rfl hs.inRule

/-- A change of the phase that stays inside a rule where it has to is nothing that a history tells
about. -/
theorem goto (hs : Agrees h s) {phase : Phase}
    (hphase : s.phase.inRule = true → phase.inRule = true) : Agrees h (s.goto phase) :=
  hs.of_core rfl fun hcurrent => hphase (hs.inRule hcurrent)

/-- The names of the symbols are those that were mentioned, in this order. -/
theorem names (hs : Agrees h s) : s.grammar.table.names = h.names := by
  have hunlinked : Symbol.name ∘ Symbol.unlinked = Symbol.name := rfl
  have hsymbol : Symbol.name ∘ h.symbol = id := rfl
  -- symbols tell their names with and without links
  rw [SymbolTable.names, ← hunlinked, ← List.map_map, hs.symbols, List.map_map, hsymbol,
    List.map_id]

/-- A symbol is what the history makes of its name, but for its place in the chain of rules. -/
theorem symbol_of_get? (hs : Agrees h s) {id : SymbolId} {x : Symbol}
    (hx : s.grammar.table.get? id = some x) : x.unlinked = h.symbol x.name := by
  have hid : (s.grammar.table.symbols.map Symbol.unlinked)[id]? = some x.unlinked := by
    rw [List.getElem?_map, show s.grammar.table.symbols[id]? = some x from hx]
    rfl
  rw [hs.symbols, List.getElem?_map] at hid
  obtain ⟨n, -, hn⟩ := Option.map_eq_some_iff.mp hid
  have hname : n = x.name := congrArg Symbol.name hn
  rw [← hname, hn]

/-- Outside of rules no alternative is open. -/
theorem current_eq_none (hs : Agrees h s) (hphase : s.phase.inRule = false) :
    h.current = none := by
  cases hcurrent : h.current with
  | none => rfl
  | some a =>
    have hin := hs.inRule (by rw [hcurrent]; rfl)
    rw [hphase] at hin
    contradiction

/-- The open rule is the last one. -/
theorem exists_openRule (hs : Agrees h s) {a : Alternative} (ha : h.current = some a) :
    ∃ rules r, s.grammar.rules = rules ++ [r] ∧ s.openRule = some rules.length ∧
      List.Forall₂ (Matches h.names) rules h.kept ∧ Matches h.names r a := by
  -- the rules are split where the kept alternatives end
  have hrules := hs.rules
  rw [ha, Option.toList_some] at hrules
  have hkept := List.forall₂_take_append _ _ _ hrules
  have hlast := List.forall₂_drop_append _ _ _ hrules
  rw [List.forall₂_cons_right_iff] at hlast
  obtain ⟨r, rest, hr, hrest, hdrop⟩ := hlast
  rw [List.forall₂_nil_right_iff.mp hrest] at hdrop
  refine ⟨_, r, ?_, ?_, hkept, hr⟩
  · rw [← hdrop, List.take_append_drop]
  · rw [hs.openRule, ha, hkept.length_eq]
    rfl

end Agrees

/-! ## Mentioning a name -/

/-- The history in which a name is mentioned once more. -/
def History.mention (h : History) (n : String) : History :=
  { h with mentions := h.mentions ++ [n] }

/-- A name that is mentioned again is not listed again. -/
theorem History.names_mention (h : History) (n : String) :
    (h.mention n).names = if n ∈ h.names then h.names else h.names ++ [n] := by
  simp only [names, mention, eraseDups_concat, List.mem_eraseDups]

/-- A name that is mentioned later takes no number away. -/
theorem History.numbers_mention {h : History} {id : SymbolId} {m : String}
    (hid : Numbers h.names id m) (n : String) : Numbers (h.mention n).names id m := by
  rw [names_mention]
  -- the list stays, or grows behind the name
  split
  · exact hid
  · rw [Numbers, List.getElem?_append_left (List.getElem?_eq_some_iff.mp hid).1]
    exact hid

/-- Optional values that are related stay so under a weaker relation. -/
theorem rel_imp {α β : Type} {r r' : α → β → Prop} (hr : ∀ a b, r a b → r' a b) {o : Option α}
    {o' : Option β} (h : Option.Rel r o o') : Option.Rel r' o o' := by
  cases h with
  | none => exact .none
  | some h => exact .some (hr _ _ h)

/-- The first of two optional values is related to the first of two others. -/
theorem rel_orElse {α β : Type} {r : α → β → Prop} {o p : Option α} {o' p' : Option β}
    (ho : Option.Rel r o o') (hp : Option.Rel r p p') : Option.Rel r (o <|> p) (o' <|> p') := by
  cases ho with
  | none => exact hp
  | some h => exact .some h

/-- Optional values that are related are there together. -/
theorem isNone_eq_of_rel {α β : Type} {r : α → β → Prop} {o : Option α} {o' : Option β}
    (h : Option.Rel r o o') : o.isNone = o'.isNone := by
  cases h with
  | none => rfl
  | some _ => rfl

/-- A rule that tells an alternative does so when more names have numbers. -/
theorem Matches.mono {names names' : List String} {r : Rule} {a : Alternative}
    (hnames : ∀ id n, Numbers names id n → Numbers names' id n) (hr : Matches names r a) :
    Matches names' r a where
  lhs := hnames _ _ hr.lhs
  rhs := hr.rhs.imp hnames
  code := hr.code
  prec := rel_imp hnames hr.prec

namespace Agrees

variable {h : History} {s s' : State}

/-- A state that interns a name agrees with the history that mentions it. -/
theorem intern (hs : Agrees h s) (n : String) :
    Agrees (h.mention n) { s with grammar := (s.grammar.intern n).2 } := by
  have hgrow : ∀ id m, Numbers h.names id m → Numbers (h.mention n).names id m :=
    fun id m hid => History.numbers_mention hid n
  have hmention : ∀ m ∈ h.mentions, m ∈ (h.mention n).mentions :=
    fun m hm => List.mem_append_left _ hm
  constructor
  case symbols =>
    show (s.grammar.table.insert n).2.symbols.map Symbol.unlinked = _
    rw [SymbolTable.symbols_insert, hs.names, History.names_mention]
    split
    · exact hs.symbols
    · next hn =>
      rw [List.map_append, List.map_append, hs.symbols, List.map_singleton, List.map_singleton]
      -- a new symbol is one that nothing is known about
      have hsymbol : (h.mention n).symbol n = Symbol.ofName n :=
        History.symbol_eq_ofName hs.known (mt History.mem_names.mpr hn)
      rw [hsymbol]
      rfl
  case stale =>
    show 0 < (s.grammar.table.insert n).2.size → (s.grammar.table.insert n).2.stale = true
    unfold SymbolTable.insert
    split
    · exact hs.stale
    · exact fun _ => rfl
  -- numbers that were given stay what they are
  case rules => exact hs.rules.imp fun r a => Matches.mono hgrow
  case declaredStart => exact rel_imp hgrow hs.declaredStart
  case known =>
    exact ⟨fun e he => hmention _ (hs.known.entry e he),
      fun a ha => ⟨hmention _ (hs.known.lhs a ha).1, (hs.known.lhs a ha).2⟩⟩
  -- nothing else changes
  case keyword => exact hs.keyword
  case tag => exact hs.tag
  case openRule => exact hs.openRule
  case inRule => exact hs.inRule
  case nextPrecedence => exact hs.nextPrecedence
  case importCode => exact hs.importCode
  case unionCode => exact hs.unionCode

/-- The number of an interned name is that of its mention. -/
theorem numbers_intern (hs : Agrees h s) (n : String) :
    Numbers (h.mention n).names (s.grammar.intern n).1 n := by
  rw [← (hs.intern n).names]
  exact SymbolTable.names_insert_fst _ _

/-- The symbol of an interned name is of the kind that its name tells. -/
theorem exists_interned (hs : Agrees h s) (n : String) :
    ∃ x, (s.grammar.table.insert n).2.get? (s.grammar.table.insert n).1 = some x ∧
      x.kind = .ofName n := by
  have hintern := hs.intern n
  have hnumber := hs.numbers_intern n
  rw [← hintern.names, Numbers, SymbolTable.names_getElem?] at hnumber
  obtain ⟨x, hx, rfl⟩ := Option.map_eq_some_iff.mp hnumber
  exact ⟨x, hx, congrArg Symbol.kind (hintern.symbol_of_get? hx)⟩

end Agrees

end Reading

end YaccGrammar
