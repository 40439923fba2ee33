import YaccGrammar.Proofs.Reading.Alternatives
import YaccGrammar.Proofs.Reading.Declarations
import YaccGrammar.Proofs.Reading.Reports

/-!
# What declarations leave behind

The names that the tokens declare are written down one after the other, and refused where the
keyword of the line does not accept them. The symbols, their precedences and the start symbol are
what these names make of them, read from left to right.

## Main statements

- `tells_consumeAll`: reading declares the names that the tokens say.
- `replays_declared`: what is read of the declarations is what the declared names say.
-/

namespace YaccGrammar

/-- The problem is that a declared name is refused. -/
def Problem.isRefusal : Problem → Bool
  | nonterminalExpected _ _ | terminalExpected _ _ | repeatedStart _ => true
  | _ => false

namespace Reading

variable {h h' h'' : History} {s s' s'' : State} {t : Token}

/-! ## Refusals -/

/-- Why a declared name is refused, if it is. A start symbol is refused behind another one. -/
def Declared.refusal? (started : Bool) (d : Declared) : Option Problem :=
  let name := d.token.text
  match d.keyword with
  | .type => if Name.isNonterminal name then none else some (.nonterminalExpected .type name)
  | .start =>
    if !Name.isNonterminal name then some (.nonterminalExpected .start name)
    else if started then some (.repeatedStart name)
    else none
  | .token | .left | .right | .nonassoc =>
    if Name.isTerminal name then none else some (.terminalExpected d.keyword name)
  | .prec | .union => none

/-- The refusals of names that are declared one after the other, each on the line of its name. It
has to be said whether a start symbol was declared before. -/
def refusalsOf (file : String) : Bool → List Declared → List Diagnostic
  | _, [] => []
  | started, d :: ds =>
    (d.refusal? started).toList.map (⟨⟨file, d.token.line⟩, ·⟩) ++
      refusalsOf file (started || d.entry.starts) ds

/-- Names are refused one after the other, and a start symbol is remembered. -/
theorem refusalsOf_append (file : String) (started : Bool) (ds ds' : List Declared) :
    refusalsOf file started (ds ++ ds') =
      refusalsOf file started ds ++
        refusalsOf file (started || ds.any fun d => d.entry.starts) ds' := by
  induction ds generalizing started with
  | nil => simp [refusalsOf]
  | cons d ds ih => simp [refusalsOf, ih, Bool.or_assoc]

/-- The refused names among the diagnostics. -/
def State.refusals (s : State) : List Diagnostic := s.errors.filter fun d => d.problem.isRefusal

theorem refusals_report (s : State) (line : Nat) {p : Problem} (hp : p.isRefusal = true) :
    (s.report line p).refusals = s.refusals ++ [⟨⟨s.file, line⟩, p⟩] := by
  simp [State.refusals, State.report, hp]

/-- A declaration refuses its name exactly if its keyword does. -/
theorem refusals_declare (k : Keyword) (t : Token) (s : State) :
    (declare k t s).refusals =
      s.refusals ++ refusalsOf s.file s.grammar.declaredStart.isSome [⟨k, s.tag, t⟩] := by
  unfold declare
  lift_lets
  intro id g
  -- interning and tagging leave the start symbol as it is
  have hstart : g.declaredStart = s.grammar.declaredStart := by
    dsimp only [g]
    split <;> rfl
  have hreport {p : Problem} (hp : p.isRefusal = true) :
      ({ s with grammar := g }.report t.line p).refusals =
        s.refusals ++ [⟨⟨s.file, t.line⟩, p⟩] := refusals_report _ t.line hp
  have hnothing : s.refusals = s.refusals ++ [] := (List.append_nil _).symm
  clear_value g
  simp only [refusalsOf, List.append_nil]
  cases k with
  | type =>
    simp only [Declared.refusal?]
    split
    · exact hnothing
    · exact hreport rfl
  | token | left | right | nonassoc =>
    simp only [Declared.refusal?]
    split
    · exact hnothing
    · exact hreport rfl
  -- a start symbol may be refused for two reasons
  | start =>
    simp only [Declared.refusal?, hstart]
    split
    · exact hreport rfl
    split
    · exact hreport rfl
    · exact hnothing
  | prec | union => exact hnothing

/-- Only a declared name is refused. -/
theorem refusals_react (t : Token) (s : State) : (react t s).state.refusals =
    s.refusals ++ refusalsOf s.file s.grammar.declaredStart.isSome (s.declares t) := by
  by_cases hphase : s.phase = .declaredNames
  · simp only [react, hphase, reactDeclaredNames, Reaction.state, State.declares]
    cases hmark : t.is '%' with
    | true =>
      cases hkeyword : s.keyword with
      | none => exact (List.append_nil _).symm
      | some keyword => exact (List.append_nil _).symm
    | false =>
      cases hkeyword : s.keyword with
      | none => exact (List.append_nil _).symm
      | some keyword =>
        -- a tag among names is reported, but no name is refused
        by_cases hfirst : t.first = '<'
        · simp [hfirst, State.refusals, State.report, Problem.isRefusal, refusalsOf]
        · simp only [hfirst, if_false, Bool.false_eq_true, decide_false, Bool.or_self]
          exact refusals_declare keyword t s
  · rw [declares_eq_nil hphase, refusalsOf, List.append_nil]
    refine filter_errors_react (fun p hp hmem => hphase ?_) t
    -- every refusal belongs to this one phase
    cases p with
    | nonterminalExpected | terminalExpected | repeatedStart =>
      exact List.mem_singleton.mp hmem
    | _ => cases hp

/-! ## Histories -/

/-- A history writes down the names that a token declares. -/
theorem entries_observe (hs : Agrees h s) (t : Token) :
    (h.observe s.phase t).entries = h.entries ++ (s.declares t).map Declared.entry := by
  cases hphase : s.phase with
  | declaredNames =>
    -- a mark and a tag are no names, and without a keyword nothing is declared
    simp only [History.observe, History.observeName, State.declares, hphase, hs.keyword]
    split
    · next hmark => cases h.line <;> simp [hmark]
    next hmark =>
    split
    · next hline => simp [hline]
    next keyword tag hline =>
    simp only [hline, Option.map_some, hs.tag keyword tag hline]
    split
    · next hfirst => simp [hfirst]
    · next hfirst => simp [hmark, hfirst, Declared.entry]
  | _ =>
    rw [declares_eq_nil (by simp [hphase]), List.map_nil, List.append_nil]
    exact (History.observe_frame _ t h).1 (by simp)

/-! ## Lists of tokens -/

/-- Between two states with their histories, names are declared: they are written down in order, and
refused in order. -/
structure Tells (ds : List Declared) (h h' : History) (s s' : State) : Prop where
  entries : h'.entries = h.entries ++ ds.map Declared.entry
  refusals : s'.refusals = s.refusals ++ refusalsOf s.file (h.entries.any DeclEntry.starts) ds
  file : s'.file = s.file

/-- Between a state and itself nothing is declared. -/
theorem Tells.refl (h : History) (s : State) : Tells [] h h s s :=
  ⟨(List.append_nil _).symm, (List.append_nil _).symm, rfl⟩

/-- What is declared in two parts is declared in a row. -/
theorem Tells.trans {ds ds' : List Declared} (hd : Tells ds h h' s s')
    (hd' : Tells ds' h' h'' s' s'') : Tells (ds ++ ds') h h'' s s'' where
  entries := by rw [hd'.entries, hd.entries, List.map_append, List.append_assoc]
  refusals := by
    have hstarted : h'.entries.any DeclEntry.starts =
        (h.entries.any DeclEntry.starts || ds.any fun d => d.entry.starts) := by
      rw [hd.entries, List.any_append, List.any_map]
      rfl
    rw [hd'.refusals, hd.refusals, hd.file, hstarted, refusalsOf_append, List.append_assoc]
  file := hd'.file.trans hd.file

/-- There is a start symbol if an entry starts. -/
theorem isSome_start? (entries : List DeclEntry) :
    (DeclEntry.start? entries).isSome = entries.any DeclEntry.starts := by
  rw [DeclEntry.start?, Option.isSome_map, List.isSome_find?]
  rfl

/-- A reaction declares what its token declares. -/
theorem tells_react (hs : Agrees h s) (t : Token) :
    Tells (s.declares t) h (h.observe s.phase t) s (react t s).state where
  entries := entries_observe hs t
  refusals := by
    have hnone := isNone_eq_of_rel hs.declaredStart
    have hstart : s.grammar.declaredStart.isSome = h.entries.any DeclEntry.starts := by
      rw [← isSome_start?, ← Option.not_isNone, ← Option.not_isNone, hnone]
    rw [refusals_react, hstart]
  file := (effect_react t s).file

/-- A token declares what the tokens say, be it read once or twice. -/
theorem tells_consume (hs : Agrees h s) (t : Token) :
    ∃ ds, Tells ds h (h.read t s) s (consume t s) ∧
      ∀ ts, s.coming (t :: ts) = ds ++ (consume t s).coming ts := by
  have hfirst := tells_react hs t
  have hagrees := hs.react t
  cases hreact : react t s with
  | done s' =>
    rw [hreact] at hfirst
    have hconsume : consume t s = s' := by rw [consume, hreact]
    have hread : h.read t s = h.observe s.phase t := by rw [History.read, hreact]
    rw [hconsume, hread]
    exact ⟨s.declares t, hfirst, coming_of_done hreact⟩
  -- the first reaction declares nothing, and the second one is the last
  | again s' =>
    rw [hreact] at hfirst hagrees
    obtain ⟨s'', hdone⟩ := done_of_again hreact
    have hsecond := tells_react hagrees t
    rw [Reaction.state, hdone] at hsecond
    have hconsume : consume t s = s'' := by rw [consume_of_again hreact, consume, hdone]
    have hread : h.read t s = (h.observe s.phase t).observe s'.phase t := by
      rw [History.read, hreact]
    rw [hconsume, hread]
    refine ⟨s.declares t ++ s'.declares t, hfirst.trans hsecond, fun ts => ?_⟩
    obtain ⟨hcoming, hnothing⟩ := coming_of_again hreact ts
    rw [hcoming, hnothing, List.nil_append, coming_of_done hdone ts]

/-- From any state on, reading declares what the tokens say. -/
theorem tells_readAll (hs : Agrees h s) (ts : List Token) :
    Tells (s.coming ts) h (h.readAll ts s) s (consumeAll ts s) := by
  induction ts generalizing h s with
  | nil =>
    rw [coming_nil]
    exact .refl h s
  | cons t ts ih =>
    -- the first token declares its names, and the others are due from there
    obtain ⟨ds, htells, hcoming⟩ := tells_consume hs t
    rw [hcoming]
    exact htells.trans (ih (agrees_consume hs t))

/-- The names that a list of tokens declares are written down, and refused as they should be. -/
theorem tells_consumeAll (file : String) (ts : List Token) :
    Tells (declared ts) {} (.ofTokens file ts) (.initial file) (consumeAll ts (.initial file)) :=
  tells_readAll (agrees_initial file) ts

/-! ## Replays -/

/-- The state is what the declared names make of the empty one, read from left to right. -/
structure Replays (file : String) (ds : List Declared) (s : State) : Prop where
  /-- Every declared name is a symbol. -/
  known : ∀ d ∈ ds, ∃ x ∈ s.grammar.table.symbols, x.name = d.token.text
  /-- A symbol has the last tag that it was given. -/
  tag : ∀ x ∈ s.grammar.table.symbols, x.tag = DeclEntry.tag? (ds.map Declared.entry) x.name
  /-- Precedence and associativity are those of the last entry that ranks the symbol. -/
  ranked : ∀ x ∈ s.grammar.table.symbols, ∀ i e,
    DeclEntry.IsLastOf x.name (DeclEntry.ranked (ds.map Declared.entry)) i e →
      x.precedence = some i ∧ x.assoc = assocOf e.keyword
  unranked : ∀ x ∈ s.grammar.table.symbols,
    (∀ e ∈ DeclEntry.ranked (ds.map Declared.entry), e.name ≠ x.name) →
      x.precedence = none ∧ x.assoc = .unknown
  /-- The precedences are counted. -/
  counter : s.nextPrecedence = (DeclEntry.ranked (ds.map Declared.entry)).length
  /-- No two symbols have one precedence. -/
  injective : ∀ id id' x x' i, s.grammar.table.get? id = some x →
    s.grammar.table.get? id' = some x' → x.precedence = some i → x'.precedence = some i → id = id'
  /-- The first start symbol that is accepted counts. -/
  start : s.grammar.declaredStart.map s.grammar.name = DeclEntry.start? (ds.map Declared.entry)
  /-- The names that their keywords refuse are reported, and no others. -/
  refusals : (s.errors.filter fun d => d.problem.isRefusal) = refusalsOf file false ds

namespace Agrees

variable {x x' : Symbol} {id id' : SymbolId} {i : Nat}

theorem symbol_of_mem (hs : Agrees h s) (hx : x ∈ s.grammar.table.symbols) :
    x.unlinked = h.symbol x.name := by
  obtain ⟨id, hid⟩ := List.getElem?_of_mem hx
  exact hs.symbol_of_get? hid

/-- The precedence of a symbol is the number of the last entry that ranks it. -/
theorem precedence_eq (hs : Agrees h s) (hx : x ∈ s.grammar.table.symbols) :
    x.precedence = (DeclEntry.rank? h.entries x.name).map Prod.snd :=
  congrArg Symbol.precedence (hs.symbol_of_mem hx)

/-- The associativity of a symbol is that of the last entry that ranks it. -/
theorem assoc_eq (hs : Agrees h s) (hx : x ∈ s.grammar.table.symbols) :
    x.assoc = match DeclEntry.rank? h.entries x.name with
      | some (e, _) => assocOf e.keyword
      | none => .unknown :=
  congrArg Symbol.assoc (hs.symbol_of_mem hx)

/-- A symbol that has a precedence has it from an entry. -/
theorem exists_isLastOf (hs : Agrees h s) (hx : x ∈ s.grammar.table.symbols)
    (hi : x.precedence = some i) :
    ∃ e, DeclEntry.IsLastOf x.name (DeclEntry.ranked h.entries) i e := by
  rw [hs.precedence_eq hx] at hi
  obtain ⟨⟨e, j⟩, hrank, rfl⟩ := Option.map_eq_some_iff.mp hi
  exact ⟨e, DeclEntry.rank?_eq_some_iff.mp hrank⟩

/-- A precedence is the place of an entry, and the entry has one name. -/
theorem eq_of_precedence (hs : Agrees h s) (hx : s.grammar.table.get? id = some x)
    (hx' : s.grammar.table.get? id' = some x') (hi : x.precedence = some i)
    (hi' : x'.precedence = some i) : id = id' := by
  obtain ⟨e, hlast⟩ := hs.exists_isLastOf (List.mem_of_getElem? hx) hi
  obtain ⟨e', hlast'⟩ := hs.exists_isLastOf (List.mem_of_getElem? hx') hi'
  have he : e = e' := Option.some.inj (hlast.get.symm.trans hlast'.get)
  have hname : x.name = x'.name := by rw [← hlast.name, he, hlast'.name]
  have hnumber {id : SymbolId} {x : Symbol} (hx : s.grammar.table.get? id = some x) :
      Numbers h.names id x.name := by
    rw [← hs.names, Numbers, SymbolTable.names_getElem?, hx]
    rfl
  exact eq_of_numbers (hnumber hx) (hname ▸ hnumber hx')

/-- What agrees with a history replays the names that the history has written down. -/
theorem replays (hs : Agrees h s) {file : String} {ds : List Declared}
    (hentries : h.entries = ds.map Declared.entry)
    (hrefusals : s.refusals = refusalsOf file false ds) : Replays file ds s where
  known := by
    intro d hd
    have hmention : d.token.text ∈ h.mentions :=
      hs.known.entry d.entry (hentries ▸ List.mem_map_of_mem hd)
    rw [← History.mem_names, ← hs.names] at hmention
    exact List.mem_map.mp hmention
  tag := fun x hx => hentries ▸ congrArg Symbol.tag (hs.symbol_of_mem hx)
  ranked := by
    intro x hx i e hlast
    rw [← hentries] at hlast
    have hrank := DeclEntry.rank?_eq_some_iff.mpr hlast
    exact ⟨by rw [hs.precedence_eq hx, hrank]; rfl, by rw [hs.assoc_eq hx, hrank]⟩
  unranked := by
    intro x hx hnone
    rw [← hentries] at hnone
    have hrank := DeclEntry.rank?_eq_none_iff.mpr hnone
    exact ⟨by rw [hs.precedence_eq hx, hrank]; rfl, by rw [hs.assoc_eq hx, hrank]⟩
  counter := hentries ▸ hs.nextPrecedence
  injective := fun id id' x x' i hx hx' hi hi' => hs.eq_of_precedence hx hx' hi hi'
  start := by
    have hstart := hs.declaredStart
    rw [← hs.names, hentries] at hstart
    exact map_eq_of_rel (rel_imp (fun id n hid => SymbolTable.name_eq_of_names hid) hstart)
  refusals := hrefusals

end Agrees

/-- Whatever the tokens are and however many of them are out of place: what is read of the
declarations is what the names that the lines declare make of it, one after the other. -/
theorem replays_declared (file : String) (ts : List Token) :
    Replays file (declared ts) (consumeAll ts (.initial file)) := by
  have htells := tells_consumeAll file ts
  exact (agrees_consumeAll file ts).replays htells.entries htells.refusals

/-- The line behind a misspelt keyword declares nothing, and the first empty line ends the
declarations. -/
example : (declared ((["%", "{%}", "%", "left", "<t>", "A", "b", "%", "lft", "C", "%", "start", "e",
      "%", "%", "left", "D"]).map fun text => ⟨text, 1⟩)).map Declared.entry =
    [⟨.left, some "t", "A"⟩, ⟨.left, some "t", "b"⟩, ⟨.start, none, "e"⟩] := by decide

end Reading

end YaccGrammar
