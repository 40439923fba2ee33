import YaccGrammar.Proofs.Grammar.Growth

/-!
# Analysing again

A grammar that has grown since its analysis is analysed again. That finds the same positions and
flags as one analysis of the whole grammar does. First-sets are different: their entries are
positions of terminals, and a new name moves the positions behind it. Old entries are kept, so they
tell of the terminals that stand there now, and pass from corner to corner like new ones. Only where
they happen to be right as well, for instance because all terminals have kept their positions, do
both ways find the same names.

## Main statements

- `Recalls.alike_analyze`: but for first-sets, both ways find the same.
- `Intact.bears_analyze_iff`: what a first-set holds after any analysis.
- `analyze_grown`: what the first-sets hold after the second analysis, for every history.
-/

namespace YaccGrammar

open Analysis SymbolTable

/-! ## Sorting what was declared -/

namespace SymbolTable

variable {t t' : SymbolTable}

/-- Without flags and first-sets, a sorted table shows what was declared. -/
theorem stripped_sort (ht : t.Consistent) :
    withoutFirstSets (unflagged t.sort) =
      { t.unanalysed with
        symbols := t.unanalysed.symbols.mapIdx fun s x => { x with index := t.byName.idxOf s }
        view := t.byName } := by
  have hsymbols : (withoutFirstSets (unflagged t.sort)).symbols =
      t.unanalysed.symbols.mapIdx fun s x => { x with index := t.byName.idxOf s } := by
    apply List.ext_getElem?
    intro s
    show (withoutFirstSets (unflagged t.sort)).get? s = _
    rw [withoutFirstSets, unflagged, get?_mapSymbols, get?_mapSymbols, get?_sort_eq ht,
      List.getElem?_mapIdx]
    show _ = (t.unanalysed.get? s).map _
    rw [get?_unanalysed]
    simp [Function.comp_def, Symbol.unanalysed]
  have hview : t.sort.view = t.byName :=
    (ht.sort.view (stale_sort t)).trans (byName_congr t.names_sort)
  simp only [withoutFirstSets, unflagged, mapSymbols] at hsymbols ⊢
  simp only [hsymbols, hview, stale_sort, counts_sort t, unanalysed]

/-- Sorted tables show the same if the same was declared of them. -/
theorem stripped_sort_congr (ht : t.Consistent) (ht' : t'.Consistent)
    (h : t'.unanalysed = t.unanalysed) :
    withoutFirstSets (unflagged t'.sort) = withoutFirstSets (unflagged t.sort) := by
  have hnames : t'.names = t.names := by rw [← names_unanalysed, h, names_unanalysed]
  rw [stripped_sort ht, stripped_sort ht', h, byName_congr hnames]

/-- Without its first-sets a table has the same names. -/
@[simp] theorem names_withoutFirstSets (t : SymbolTable) :
    (withoutFirstSets t).names = t.names := by
  simp [withoutFirstSets, mapSymbols, names, Function.comp_def]

/-- Tables that differ in first-sets only have the same names. -/
theorem names_eq_of_withoutFirstSets (h : withoutFirstSets t' = withoutFirstSets t) :
    t'.names = t.names := by
  rw [← names_withoutFirstSets, h, names_withoutFirstSets]

/-- The name at a position depends on the names only. -/
theorem nameAt_congr (h : t'.names = t.names) : t'.nameAt = t.nameAt := by
  funext i
  rw [nameAt, nameAt, byName_congr h, name_congr h]

/-- Names are told apart by their positions. -/
theorem nameAt_inj (ht : t.names.Nodup) {i j : Nat} (hi : i < t.size) (hj : j < t.size)
    (h : t.nameAt i = t.nameAt j) : i = j := by
  have hlength : t.byName.length = t.size := by simpa using t.byName_perm.length_eq
  have hi' := List.getElem?_eq_getElem (hi.trans_eq hlength.symm)
  have hj' := List.getElem?_eq_getElem (hj.trans_eq hlength.symm)
  rw [nameAt_eq hi', nameAt_eq hj'] at h
  have hid := eq_of_name_eq ht (mem_byName.mp (List.mem_of_getElem? hi'))
    (mem_byName.mp (List.mem_of_getElem? hj')) h
  exact (List.getElem?_inj (hi.trans_eq hlength.symm) t.nodup_byName).mp
    (hi'.trans ((congrArg some hid).trans hj'.symm))

end SymbolTable

namespace Grammar

variable {g g' : Grammar} {s : SymbolId} {i : Nat}

/-! ## Both ways are alike -/

/-- The rules of an analysed grammar are those that were declared. -/
theorem rules_prepared (g : Grammar) : g.prepared.rules = g.unanalysed.rules := by
  apply List.ext_getElem?
  intro k
  show g.analyze.rules[k]? = _
  rw [← rule?, rule?_analyze, unanalysed, List.getElem?_map]
  rfl

namespace Recalls

/-- Rules of which the same was declared have the same sides. -/
theorem exists_rule (h : g'.unanalysed = g.unanalysed) {r' : Rule} (hr' : r' ∈ g'.rules) :
    ∃ r ∈ g.rules, r.lhs = r'.lhs ∧ r.rhs = r'.rhs := by
  have hmem : r'.backfilled g'.table ∈ g.unanalysed.rules := h ▸ List.mem_map_of_mem hr'
  obtain ⟨r, hr, heq⟩ := List.mem_map.mp hmem
  exact ⟨r, hr, (congrArg Rule.lhs heq :), (congrArg Rule.rhs heq :)⟩

/-- What is recalled makes nothing vanish that would not vanish anyway. -/
theorem derives_nil_iff (h : g.Recalls g') : g'.Derives [s] [] ↔ g.Derives [s] [] := by
  constructor
  · -- each production of the one grammar is a derivation in the other
    intro hd
    refine forall_mem_of_derives_nil (P := fun s => g.Derives [s] []) ?_ hd s List.mem_cons_self
    intro s rhs hprod hrhs
    cases hprod with
    | rule r' hr' =>
      obtain ⟨r, hr, hlhs, hrhs'⟩ := exists_rule h.unanalysed hr'
      rw [← hlhs]
      exact .head (rewrites_of_production (.rule r hr))
        (hrhs' ▸ derives_nil_of_forall hrhs)
    -- a flag that is recalled is that of a symbol that vanishes
    | flagged s hflag => exact h.vanishes s hflag
  · refine Derives.mono fun s rhs hprod => ?_
    cases hprod with
    | rule r hr =>
      obtain ⟨r', hr', hlhs, hrhs⟩ := exists_rule h.unanalysed.symm hr
      exact hlhs ▸ hrhs ▸ .rule r' hr'
    | flagged s hflag => exact .flagged s (h.flagged s hflag)

end Recalls

/-- The last part of the analysis writes nothing but first-sets. -/
theorem Intact.modifyTable_analyze (hg : g.Intact) :
    g.analyze.modifyTable withoutFirstSets = g.prepared.modifyTable withoutFirstSets := by
  rw [modifyTable, hg.withoutFirstSets_analyze]
  rfl

/-- But for first-sets, the analysis finds what it would find without anything to recall. -/
theorem Recalls.alike_analyze (h : g.Recalls g') (hg : g.Intact) (hg' : g'.Intact) :
    g'.analyze.modifyTable withoutFirstSets = g.analyze.modifyTable withoutFirstSets := by
  have hflags (t : SymbolTable) (s : SymbolId) :
      (withoutFirstSets t).isNullable s = t.isNullable s := by
    rw [withoutFirstSets, isNullable, isNullable, get?_mapSymbols, Option.any_map]
  have hcomm (t : SymbolTable) :
      unflagged (withoutFirstSets t) = withoutFirstSets (unflagged t) := by
    simp [unflagged, withoutFirstSets, mapSymbols]
  have hunflagged {g : Grammar} (hg : g.Intact) :
      unflagged g.prepared.table = unflagged g.table.sort :=
    unflagged_computeNullable hg.sorted.sound.inRange
  -- the tables agree but for flags, and the flags are those of the symbols that vanish
  have htable : withoutFirstSets g'.prepared.table = withoutFirstSets g.prepared.table := by
    apply eq_of_unflagged_eq
    · rw [hcomm, hcomm, hunflagged hg, hunflagged hg']
      exact stripped_sort_congr hg.consistent hg'.consistent (congrArg table h.unanalysed)
    · intro s
      rw [← hg.withoutFirstSets_analyze, ← hg'.withoutFirstSets_analyze, hflags, hflags,
        hg.isNullable_analyze_iff, hg'.isNullable_analyze_iff]
      exact h.derives_nil_iff
  have hrules : g'.prepared.rules = g.prepared.rules := by
    rw [rules_prepared, rules_prepared, h.unanalysed]
  rw [hg.modifyTable_analyze, hg'.modifyTable_analyze, modifyTable, modifyTable, htable, hrules]
  -- the start symbol and the codes were declared as well
  exact congrArg (fun d : Grammar => { d with
    table := withoutFirstSets g.prepared.table, rules := g.prepared.rules }) h.unanalysed

/-! ## Entries -/

/-- What a first-set holds after an analysis: what the symbols that are reached held before it, and
the positions of the terminals at their corners. -/
theorem Intact.bears_analyze_iff (hg : g.Intact) :
    Bears i g.analyze.table s ↔
      ∃ s', Reaches g.analyze s s' ∧ (Bears i g.table s' ∨ Starts g.analyze i s') := by
  have htable := hg.withoutFirstSets_analyze
  have hrules : g.analyze.rules = g.prepared.rules := rfl
  refine (bears_computeFirstSets_iff hg.prepared.sound.inRange).trans ?_
  refine exists_congr fun s' => ?_
  rw [reaches_congr htable hrules, starts_congr htable hrules, hg.bears_prepared]

/-- What an analysed grammar opens, an analysis opens in every grammar that has at least its rules
and flags. -/
theorem Intact.opens_analyze (hg : g.Intact) (hg' : g'.Intact) (h : Opens g g') :
    Opens g.analyze g'.analyze where
  rule r hr := by
    obtain ⟨r₀, hr₀, rfl⟩ := List.mem_map.mp (rules_analyze g ▸ hr)
    obtain ⟨r', hr', hlhs, hrhs⟩ := h.rule r₀ hr₀
    rw [rules_analyze]
    exact ⟨_, List.mem_map_of_mem hr', hlhs, hrhs⟩
  kind s x hx := by
    obtain ⟨x₀, hx₀, henriched⟩ := g.enriched_analyze.exists_get? hx
    obtain ⟨y, hy, hterminal, -⟩ := h.kind s x₀ hx₀
    obtain ⟨x', hx', henriched'⟩ := g'.enriched_analyze.symbol s y hy
    refine ⟨x', hx', ?_, fun hflag => ?_⟩
    · exact (Symbol.isTerminal_congr henriched'.kind).trans
        (hterminal.trans (Symbol.isTerminal_congr henriched.kind).symm)
    · -- what vanishes in the smaller grammar vanishes in the larger one
      rw [← isNullable_eq_of_get? hx, hg.isNullable_analyze_iff] at hflag
      rw [← isNullable_eq_of_get? hx', hg'.isNullable_analyze_iff]
      exact h.derives hflag

/-- The names in a first-set can be read, and they are those at its positions. -/
theorem Intact.exists_firstSetNames (hg : g.Intact) (h : g.Positioned) (s : SymbolId) :
    ∃ ns, g.analyze.firstSetNames s = .ok ns ∧
      ∀ n, n ∈ ns ↔ ∃ i, Bears i g.analyze.table s ∧ g.analyze.table.nameAt i = n := by
  cases hx : g.analyze.table.get? s with
  | none =>
    refine ⟨[], by rw [firstSetNames, hx], fun n => ⟨nofun, ?_⟩⟩
    rintro ⟨i, ⟨x, hx', -⟩, -⟩
    rw [hx] at hx'
    cases hx'
  | some x =>
    refine ⟨_, hg.firstSetNames_analyze h hx, fun n => ?_⟩
    simp only [List.mem_map, BitSet.mem_toList, Bears, hx, Option.some_inj, exists_eq_left']

/-! ## The second analysis -/

/-- A grammar that was analysed, has grown and was analysed again, compared with one that has grown
likewise and was analysed only then. Reading from corner to corner, what the second analysis has
found besides is what was found by the first one, with the names that stand there now. -/
structure Reanalysed (first second once : Grammar) : Prop where
  alike : second.modifyTable withoutFirstSets = once.modifyTable withoutFirstSets
  symbol : ∀ s x, once.table.get? s = some x → ∃ x', second.table.get? s = some x' ∧
    x'.name = x.name ∧ x'.index = x.index ∧ x'.nullable = x.nullable
  entry : ∀ i s, Bears i second.table s ↔
    Bears i once.table s ∨ ∃ s', Reaches once s s' ∧ Bears i first.table s'
  names : ∀ s, ∃ ns ns', once.firstSetNames s = .ok ns ∧ second.firstSetNames s = .ok ns' ∧
    ∀ n, n ∈ ns' ↔ n ∈ ns ∨
      ∃ i s', Reaches once s s' ∧ Bears i first.table s' ∧ once.table.nameAt i = n
  /-- Both ways find the same names where old positions happen to be right. -/
  agree : (∀ s, second.firstSetNames s = once.firstSetNames s) ↔
    ∀ i s, Bears i first.table s → Bears i once.table s
  /-- They do if no terminal has been moved. -/
  kept : (∀ c x x', first.table.get? c = some x → once.table.get? c = some x' →
    x.isTerminal = true → x'.index = x.index) →
    ∀ s, second.firstSetNames s = once.firstSetNames s

section Names

variable (hg : g.Intact) (hg' : g'.Intact) (hpos : g.Positioned) (hpos' : g'.Positioned)

include hg hg' hpos hpos'

/-- Where the same names are found, the same positions are. -/
theorem bears_of_firstSetNames_eq (hnames : g'.analyze.table.names = g.analyze.table.names)
    (h : g'.analyze.firstSetNames s = g.analyze.firstSetNames s)
    (hi : Bears i g'.analyze.table s) : Bears i g.analyze.table s := by
  obtain ⟨ns, hns, hmem⟩ := hg.exists_firstSetNames hpos s
  obtain ⟨ns', hns', hmem'⟩ := hg'.exists_firstSetNames hpos' s
  rw [hns, hns'] at h
  cases h
  -- the name is found on the other side too, at a position that can only be the same
  obtain ⟨j, hj, hname⟩ := (hmem _).mp ((hmem' _).mpr ⟨i, hi, rfl⟩)
  have hsize : g'.analyze.table.size = g.analyze.table.size := by
    rw [← length_names, hnames, length_names]
  rw [nameAt_congr hnames] at hname
  have hji := nameAt_inj hg.analyze.consistent.nodup (hpos.analyze hg j s hj)
    ((hpos'.analyze hg' i s hi).trans_eq hsize) hname
  exact hji ▸ hj

/-- Of analysed grammars that differ in first-sets only, those of a symbol are read alike exactly if
they have the same entries. -/
theorem firstSetNames_analyze_eq_iff
    (halike : g'.analyze.modifyTable withoutFirstSets = g.analyze.modifyTable withoutFirstSets) :
    g'.analyze.firstSetNames s = g.analyze.firstSetNames s ↔
      ∀ i, Bears i g'.analyze.table s ↔ Bears i g.analyze.table s := by
  have htable : withoutFirstSets g'.analyze.table = withoutFirstSets g.analyze.table :=
    congrArg table halike
  have hnames : g'.analyze.table.names = g.analyze.table.names :=
    names_eq_of_withoutFirstSets htable
  constructor
  · exact fun h i => ⟨bears_of_firstSetNames_eq hg hg' hpos hpos' hnames h,
      bears_of_firstSetNames_eq hg' hg hpos' hpos hnames.symm h.symm⟩
  · intro h
    cases hx : g.analyze.table.get? s with
    | none =>
      have hx' : g'.analyze.table.get? s = none := by
        cases hx' : g'.analyze.table.get? s with
        | none => rfl
        | some x' =>
          obtain ⟨x, hx₀, -⟩ := exists_get?_of_withoutFirstSets htable hx'
          rw [hx] at hx₀
          cases hx₀
      rw [firstSetNames, firstSetNames, hx, hx']
    -- two ascending lists with the same members
    | some x =>
      obtain ⟨x', hx', -⟩ := exists_get?_of_withoutFirstSets htable.symm hx
      have hmem (i : Nat) : i ∈ x'.firstSet.toList ↔ i ∈ x.firstSet.toList := by
        rw [BitSet.mem_toList, BitSet.mem_toList]
        simpa [Bears, hx, hx'] using h i
      have hlists : x'.firstSet.toList = x.firstSet.toList :=
        List.Pairwise.eq_of_mem_iff x'.firstSet.pairwise_toList x.firstSet.pairwise_toList hmem
      rw [hg.firstSetNames_analyze hpos hx, hg'.firstSetNames_analyze hpos' hx', hlists,
        nameAt_congr hnames]

end Names

/-- What the second analysis of a grammar finds, from what was there before the first one and what
has been added since. -/
theorem Intact.reanalysed (hg : g.Intact) {as : List Addition}
    (hlater : (g.grow as).Intact) (hlater' : (g.analyze.grow as).Intact)
    (h : (g.grow as).Recalls (g.analyze.grow as)) (hnext : (g.grow as).Positioned)
    (hnext' : (g.analyze.grow as).Positioned) :
    Reanalysed g.analyze (g.analyze.grow as).analyze (g.grow as).analyze := by
  have halike := h.alike_analyze hlater hlater'
  have htable : withoutFirstSets (g.analyze.grow as).analyze.table =
      withoutFirstSets (g.grow as).analyze.table := congrArg table halike
  have hrules : (g.analyze.grow as).analyze.rules = (g.grow as).analyze.rules :=
    (congrArg rules halike :)
  have hentry (i : Nat) (s : SymbolId) : Bears i (g.analyze.grow as).analyze.table s ↔
      Bears i (g.grow as).analyze.table s ∨
        ∃ s', Reaches (g.grow as).analyze s s' ∧ Bears i g.analyze.table s' := by
    rw [hlater'.bears_analyze_iff, hlater.bears_analyze_iff]
    simp only [reaches_congr htable hrules, starts_congr htable hrules, bears_grow]
    constructor
    · rintro ⟨s', hreaches, hfound | hstarts⟩
      · exact .inr ⟨s', hreaches, hfound⟩
      · exact .inl ⟨s', hreaches, .inr hstarts⟩
    · rintro (⟨s', hreaches, hold | hstarts⟩ | ⟨s', hreaches, hfound⟩)
      · -- what was there before the first analysis was there after it
        exact ⟨s', hreaches, .inl (hg.bears_analyze_iff.mpr ⟨s', .refl, .inl hold⟩)⟩
      · exact ⟨s', hreaches, .inr hstarts⟩
      · exact ⟨s', hreaches, .inl hfound⟩
  have hagree : (∀ s, (g.analyze.grow as).analyze.firstSetNames s =
        (g.grow as).analyze.firstSetNames s) ↔
      ∀ i s, Bears i g.analyze.table s → Bears i (g.grow as).analyze.table s := by
    simp only [firstSetNames_analyze_eq_iff hlater hlater' hnext hnext' halike, hentry]
    constructor
    · exact fun h i s hfound => (h s i).mp (.inr ⟨s, .refl, hfound⟩)
    · refine fun h s i => ⟨?_, .inl⟩
      rintro (honce | ⟨s', hreaches, hfound⟩)
      · exact honce
      · -- what is right at one corner is right at all symbols that reach it
        obtain ⟨s'', hreaches', hend⟩ := hlater.bears_analyze_iff.mp (h i s' hfound)
        exact hlater.bears_analyze_iff.mpr ⟨s'', hreaches.trans hreaches', hend⟩
  constructor
  case alike => exact halike
  case entry => exact hentry
  case agree => exact hagree
  case symbol =>
    intro s x hx
    obtain ⟨x', hx', -, hnullable, hindex, hname⟩ := exists_get?_of_withoutFirstSets htable.symm hx
    exact ⟨x', hx', hname, hindex, hnullable⟩
  case names =>
    intro s
    obtain ⟨ns, hns, hmem⟩ := hlater.exists_firstSetNames hnext s
    obtain ⟨ns', hns', hmem'⟩ := hlater'.exists_firstSetNames hnext' s
    refine ⟨ns, ns', hns, hns', fun n => ?_⟩
    rw [hmem, hmem', nameAt_congr (names_eq_of_withoutFirstSets htable)]
    simp only [hentry]
    constructor
    · rintro ⟨i, honce | ⟨s', hreaches, hfound⟩, hname⟩
      · exact .inl ⟨i, honce, hname⟩
      · exact .inr ⟨i, s', hreaches, hfound, hname⟩
    · rintro (⟨i, honce, hname⟩ | ⟨i, s', hreaches, hfound, hname⟩)
      · exact ⟨i, .inl honce, hname⟩
      · exact ⟨i, .inr ⟨s', hreaches, hfound⟩, hname⟩
  case kept =>
    -- each entry of the first analysis comes from a terminal that stands where it stood
    intro hkept
    refine hagree.mpr fun i s hfound => ?_
    have hopens := hg.opens_analyze hlater (opens_grow g as)
    obtain ⟨s', hreaches, hold | hstarts⟩ := hg.bears_analyze_iff.mp hfound
    · exact hlater.bears_analyze_iff.mpr
        ⟨s', hopens.reaches hreaches, .inl ((bears_grow g as i s').mpr hold)⟩
    · exact hlater.bears_analyze_iff.mpr
        ⟨s', hopens.reaches hreaches, .inr (hopens.starts hstarts hkept)⟩

/-- A history is carried out exactly if it is valid. -/
theorem valid_iff (cs : List Call) : Valid cs ↔ ∃ g, calls {} cs = .ok g := by
  rcases tracks_calls cs with ⟨g, hok, hvalid, -⟩ | ⟨herror, hvalid⟩
  · exact iff_of_true hvalid ⟨g, hok⟩
  · refine iff_of_false hvalid ?_
    rintro ⟨g, hok⟩
    rw [herror] at hok
    cases hok

/-- An analysis of an intact grammar is not refused. -/
theorem Intact.calls_analyze (hg : g.Intact) : g.calls [.analyze] = .ok g.analyze := by
  have hrange : Call.analyze.InRange g.table.size g.rules.length := ⟨nofun, nofun⟩
  simp only [calls, List.foldlM_cons, List.foldlM_nil, hg.call_eq, if_pos hrange]
  rfl

/-- Whatever the calls are, and whatever is added after the analysis: the same additions are carried
out as without it, or refused for a number that is not known. A second analysis then gives every
symbol the position and the flag that one analysis would give it, and its first-set the names that
one analysis would find, and those that now stand where the first analysis found others. -/
theorem analyze_grown (cs : List Call) (as : List Addition) :
    let more := growth (heads cs).length as
    (∃ first second once, calls {} (cs ++ [.analyze]) = .ok first ∧
      calls {} (cs ++ [.analyze] ++ more ++ [.analyze]) = .ok second ∧
      calls {} (cs ++ more ++ [.analyze]) = .ok once ∧ Valid (cs ++ more) ∧
      Reanalysed first second once) ∨
    calls {} (cs ++ [.analyze] ++ more ++ [.analyze]) = .error .outOfRange ∧
      calls {} (cs ++ more ++ [.analyze]) = .error .outOfRange ∧ ¬ Valid (cs ++ more) := by
  intro more
  rw [valid_iff]
  simp only [calls_append]
  rcases tracks_calls cs with ⟨g, hok, -, htracks⟩ | ⟨herror, -⟩
  · have hg := htracks.intact
    have hcount : (heads cs).length = g.rules.length := by rw [← htracks.lhs, List.length_map]
    have hmore : more = growth g.rules.length as := congrArg (growth · as) hcount
    simp only [hok, Fault.ok_bind, hg.calls_analyze, hmore]
    rcases hg.recalls_analyze.calls_growth hg hg.analyze as with
      ⟨hgrown, hgrown', hlater, hlater', h⟩ | ⟨hrefused, hrefused'⟩
    · -- every addition was accepted
      left
      have honce : calls {} (cs ++ more) = .ok (g.grow as) := by
        rw [calls_append, hok, hmore]
        exact hgrown
      have hsecond : calls {} (cs ++ [.analyze] ++ more) = .ok (g.analyze.grow as) := by
        rw [calls_append, calls_append, hok, hmore, Fault.ok_bind, hg.calls_analyze]
        exact hgrown'
      simp only [hgrown, hgrown', Fault.ok_bind, hlater.calls_analyze, hlater'.calls_analyze]
      exact ⟨_, _, _, rfl, rfl, rfl, ⟨_, rfl⟩, hg.reanalysed hlater hlater' h
        (positioned_calls honce) (positioned_calls hsecond)⟩
    · right
      -- an addition refers to a number that is not known, with or without the analysis
      simp only [hrefused, hrefused']
      exact ⟨rfl, rfl, nofun⟩
  · right
    simp only [herror]
    exact ⟨rfl, rfl, nofun⟩

/-- Two names stand where there was one, and the old position is that of the other name now: a
nonterminal that begins with one terminal only is said to begin with both. -/
theorem analyze_grown_moved :
    let cs : List Call := [.insert "s", .insert "B", .addRule 0 1, .setRule 0 [1] none none]
    let more := growth (heads cs).length [.symbol "A"]
    (calls {} (cs ++ [.analyze] ++ more ++ [.analyze]) >>= (·.firstSetNames 0)) =
        .ok ["A", "B"] ∧
      (calls {} (cs ++ more ++ [.analyze]) >>= (·.firstSetNames 0)) = .ok ["B"] := by
  decide +kernel

end Grammar

end YaccGrammar
