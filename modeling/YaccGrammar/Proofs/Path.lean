import Mathlib.Data.List.TakeWhile
import YaccGrammar.Path

/-!
# Pieces, names and extensions

How a path divides into pieces, and a name into stem and extension. The name that goes with another
one, under a given extension, is the stem taken apart once more, and so it is the same name only if
there was nothing more to take apart.

## Main statements

- `pieces_eq_of_named`, `fileName?_of_pieces`: the last piece of a path names its file.
- `divide?_eq_some_iff`, `divide?_eq_none_iff`: where a name is divided.
- `withExtension_eq`: what a new extension makes of a name.
- `withExtension_stem_eq_iff`: the names that go with themselves.
-/

namespace YaccGrammar.Path

/-! ## Pieces -/

/-- Every path has a piece, though it may be an empty one. -/
theorem pieces_ne_nil (s : List Char) : pieces s ≠ [] := by
  cases s with
  | nil => exact List.cons_ne_nil _ _
  | cons c s =>
    rw [pieces]
    split
    · exact List.cons_ne_nil _ _
    · split <;> exact List.cons_ne_nil _ _

/-- The last piece of a path is empty only behind a slash. -/
theorem getLast?_eq_slash {s : List Char} (h : (pieces s).getLast? = some []) :
    s = [] ∨ s.getLast? = some '/' := by
  induction s with
  | nil => exact .inl rfl
  | cons c s ih =>
    obtain ⟨piece, others, hpieces⟩ := List.exists_cons_of_ne_nil (pieces_ne_nil s)
    right
    -- what is known of the rest of the path holds of all of it
    have hrest (hs : (pieces s).getLast? = some []) (hc : s = [] → c = '/') :
        (c :: s).getLast? = some '/' := by
      rcases ih hs with rfl | hslash
      · rw [hc rfl]
        rfl
      · rw [List.getLast?_cons, hslash]
        rfl
    rw [pieces] at h
    split at h
    · next hc =>
      rw [hpieces, List.getLast?_cons_cons, ← hpieces] at h
      exact hrest h fun _ => hc
    · rw [hpieces] at h
      cases others with
      | nil => simp at h
      | cons next others =>
        rw [List.getLast?_cons_cons, ← List.getLast?_cons_cons (a := piece), ← hpieces] at h
        refine hrest h ?_
        rintro rfl
        simp [pieces] at hpieces

/-- Without a slash behind it, a path ends in the piece that names its file. -/
theorem pieces_eq_of_named {s last : List Char} {before : List (List Char)}
    (hslash : s.getLast? ≠ some '/')
    (hnamed : (pieces s).reverse.dropWhile (· = []) = last :: before) :
    pieces s = before.reverse ++ [last] := by
  have hreverse : (pieces s).reverse = last :: before := by
    obtain ⟨piece, others, hothers⟩ :=
      List.exists_cons_of_ne_nil (List.reverse_ne_nil_iff.mpr (pieces_ne_nil s))
    have hlast : (pieces s).getLast? = some piece := by
      rw [List.getLast?_eq_head?_reverse, hothers]
      rfl
    rw [hothers] at hnamed ⊢
    -- the last piece is empty only behind a slash, which is excluded
    by_cases hpiece : piece = []
    · rw [hpiece] at hlast
      rcases getLast?_eq_slash hlast with rfl | hlast
      · -- the empty path names nothing
        have hnone : others = [] := by simpa [pieces] using congrArg List.tail hothers.symm
        simp [hpiece, hnone] at hnamed
      · exact absurd hlast hslash
    · rwa [List.dropWhile_cons_of_neg (by simpa using hpiece)] at hnamed
  rw [← List.reverse_reverse (pieces s), hreverse, List.reverse_cons]

/-- A text without a slash is one piece. -/
theorem pieces_of_not_mem {s : List Char} (h : '/' ∉ s) : pieces s = [s] := by
  induction s with
  | nil => rfl
  | cons c s ih =>
    rw [List.mem_cons, not_or] at h
    rw [pieces, if_neg (Ne.symm h.1), ih h.2]

/-- No piece has a slash in it. -/
theorem not_mem_of_mem_pieces {s piece : List Char} (h : piece ∈ pieces s) : '/' ∉ piece := by
  induction s generalizing piece with
  | nil =>
    rw [pieces, List.mem_singleton] at h
    simp [h]
  | cons c s ih =>
    rw [pieces] at h
    -- a slash begins a new piece, any other character is added to the first one
    split at h
    · rcases List.mem_cons.mp h with rfl | h
      · simp
      · exact ih h
    next hc =>
    obtain ⟨first, others, hpieces⟩ := List.exists_cons_of_ne_nil (pieces_ne_nil s)
    rw [hpieces] at h ih
    rcases List.mem_cons.mp h with rfl | h
    · rw [List.mem_cons, not_or]
      exact ⟨Ne.symm hc, ih List.mem_cons_self⟩
    · exact ih (List.mem_cons_of_mem _ h)

/-! ## Names -/

/-- A piece that says something and does not lead up. -/
def IsName (piece : List Char) : Prop := ofPiece? piece = some (.name piece)

/-- A name is not empty and consists of neither one nor two dots. -/
theorem isName_iff {piece : List Char} :
    IsName piece ↔ piece ≠ [] ∧ piece ≠ ['.'] ∧ piece ≠ ['.', '.'] := by
  unfold IsName ofPiece?
  by_cases hdot : piece = [] ∨ piece = ['.']
  · rcases hdot with rfl | rfl
    · simp
    · simp
  · rw [not_or] at hdot
    by_cases hup : piece = ['.', '.']
    · simp [hup]
    · simp [hdot, hup]

/-- A path names the file that its last piece names. -/
theorem fileName?_of_pieces {path : String} {before : List (List Char)} {last : List Char}
    (hpieces : pieces path.toList = before ++ [last]) (hlast : IsName last) :
    fileName? path = some last := by
  obtain ⟨hne, hdot, -⟩ := isName_iff.mp hlast
  rw [IsName] at hlast
  have hcomponents : (components path).getLast? = some (.name last) := by
    unfold components
    rw [hpieces]
    cases before with
    | nil => simp [hne, hdot, hlast]
    | cons first before => simp [hlast, List.filterMap_append]
  rw [fileName?, hcomponents]

/-- A piece that stands for a name is that name. -/
theorem eq_of_ofPiece?_eq_name {piece text : List Char} (h : ofPiece? piece = some (.name text)) :
    piece = text := by
  unfold ofPiece? at h
  split at h
  · cases h
  split at h
  · cases h
  · cases h
    rfl

/-- A path is made of what its pieces stand for. -/
theorem mem_pieces_of_mem_components {path : String} {text : List Char}
    (h : .name text ∈ components path) :
    text ∈ pieces path.toList ∧ IsName text := by
  have hpiece {piece : List Char} (hmem : piece ∈ pieces path.toList)
      (hname : ofPiece? piece = some (.name text)) : text ∈ pieces path.toList ∧ IsName text := by
    obtain rfl := eq_of_ofPiece?_eq_name hname
    exact ⟨hmem, hname⟩
  unfold components at h
  cases hpieces : pieces path.toList with
  | nil => exact absurd hpieces (pieces_ne_nil _)
  | cons first others =>
    rw [hpieces] at h hpiece
    rcases List.mem_append.mp h with hfirst | hother
    · -- what stands in front of all names is the root or a dot
      split at hfirst
      · simp at hfirst
      split at hfirst
      · simp at hfirst
      · exact hpiece List.mem_cons_self (Option.mem_toList.mp hfirst)
    · obtain ⟨piece, hmem, hname⟩ := List.mem_filterMap.mp hother
      exact hpiece (List.mem_cons_of_mem _ hmem) hname

/-- The name of a file is a name without slashes. -/
theorem isName_of_fileName? {path : String} {name : List Char}
    (h : fileName? path = some name) : IsName name ∧ '/' ∉ name := by
  unfold fileName? at h
  split at h
  · next hlast =>
    cases h
    obtain ⟨hmem, hname⟩ := mem_pieces_of_mem_components (List.mem_of_getLast? hlast)
    exact ⟨hname, not_mem_of_mem_pieces hmem⟩
  · cases h

/-! ## Stems and extensions -/

variable {name before behind extension : List Char}

/-- Where no dot is, none is met from the end either. -/
theorem ne_dot_of_mem_reverse {s : List Char} (h : '.' ∉ s) :
    ∀ c ∈ s.reverse, decide (c ≠ '.') = true := by
  intro c hc
  rw [decide_eq_true_eq]
  rintro rfl
  exact h (List.mem_reverse.mp hc)

/-- A name is divided at its last dot. -/
theorem divide?_append (before : List Char) (hbehind : '.' ∉ behind) :
    divide? (before ++ '.' :: behind) = if before = [] then none else some (before, behind) := by
  have hall := ne_dot_of_mem_reverse hbehind
  have hreverse : (before ++ '.' :: behind).reverse = behind.reverse ++ '.' :: before.reverse := by
    simp
  -- from the end, the first dot is the one in front of `behind`
  unfold divide?
  rw [hreverse, List.takeWhile_append_of_pos hall, List.dropWhile_append_of_pos hall]
  simp

/-- A name without a dot is not divided. -/
theorem divide?_of_not_mem (h : '.' ∉ name) : divide? name = none := by
  have hnone : name.reverse.dropWhile (fun c => decide (c ≠ '.')) = [] :=
    List.dropWhile_eq_nil_iff.mpr (ne_dot_of_mem_reverse h)
  unfold divide?
  rw [hnone]
  rfl

/-- The last dot of a name. -/
theorem exists_last_dot (h : '.' ∈ name) :
    ∃ before behind, '.' ∉ behind ∧ name = before ++ '.' :: behind := by
  -- the last dot is the first one from the end
  obtain ⟨behind, before, hname, hbehind⟩ :=
    List.eq_append_cons_of_mem (List.mem_reverse.mpr h)
  refine ⟨before.reverse, behind.reverse, fun hdot => hbehind (List.mem_reverse.mp hdot), ?_⟩
  rw [← List.reverse_reverse name, hname]
  simp

/-- A name is divided at a dot if something stands in front of it and no dot behind it. -/
theorem divide?_eq_some_iff : divide? name = some (before, behind) ↔
    before ≠ [] ∧ '.' ∉ behind ∧ name = before ++ '.' :: behind := by
  constructor
  · intro h
    -- only a name with a dot is divided
    by_cases hdot : '.' ∈ name
    · obtain ⟨before', behind', hbehind, rfl⟩ := exists_last_dot hdot
      rw [divide?_append before' hbehind] at h
      split at h
      · cases h
      next hne =>
      cases h
      exact ⟨hne, hbehind, rfl⟩
    · rw [divide?_of_not_mem hdot] at h
      cases h
  · rintro ⟨hne, hbehind, rfl⟩
    rw [divide?_append before hbehind, if_neg hne]

/-- A name without a dot, or with one only in front, is not divided. -/
theorem divide?_eq_none_iff : divide? name = none ↔ '.' ∉ name.tail := by
  by_cases hdot : '.' ∈ name
  · obtain ⟨before, behind, hbehind, rfl⟩ := exists_last_dot hdot
    rw [divide?_append before hbehind]
    cases before with
    | nil => simp [hbehind]
    | cons c before => simp
  · have htail : '.' ∉ name.tail := fun h => hdot (List.mem_of_mem_tail h)
    simp [divide?_of_not_mem hdot, htail]

/-- An extension goes behind a name that is not divided. -/
theorem withExtension_of_none (hname : IsName name) (h : divide? name = none) :
    withExtension name extension = name ++ '.' :: extension := by
  rw [IsName] at hname
  simp [withExtension, stem, h, hname]

/-- A name has a stem. -/
theorem stem_ne_nil (h : name ≠ []) : stem name ≠ [] := by
  cases hdivide : divide? name with
  | none => simpa [stem, hdivide] using h
  | some parts => simpa [stem, hdivide] using (divide?_eq_some_iff.mp hdivide).1

/-- A name is its own stem if no dot stands behind its first character. -/
theorem stem_eq_self_iff : stem name = name ↔ '.' ∉ name.tail := by
  rw [← divide?_eq_none_iff]
  cases hdivide : divide? name with
  | none => simp [stem, hdivide]
  | some parts =>
    obtain ⟨-, -, rfl⟩ := divide?_eq_some_iff.mp hdivide
    simp [stem, hdivide]

/-- Two dots are divided into a dot and nothing. -/
theorem eq_dot_of_append_eq (hbefore : before ≠ []) (h : before ++ '.' :: behind = ['.', '.']) :
    before = ['.'] := by
  have hprefix := List.prefix_iff_eq_take.mp (h ▸ List.prefix_append before _)
  have hone : before.length = 1 := by
    have hpos := List.length_pos_iff.mpr hbefore
    have hlength := congrArg List.length h
    simp only [List.length_append, List.length_cons, List.length_nil] at hlength
    omega
  rwa [hone] at hprefix

/-- An extension behind a stem. Behind a dot alone, only the dot of the extension is kept. -/
def extended (s extension : List Char) : List Char :=
  if s = ['.'] then ['.', '.'] else s ++ '.' :: extension

/-- Behind a dot alone only the dot of the extension is kept. -/
theorem extended_here : extended ['.'] extension = ['.', '.'] :=
  if_pos rfl

/-- Behind any other stem the extension follows its dot. -/
theorem extended_of_ne (h : name ≠ ['.']) : extended name extension = name ++ '.' :: extension :=
  if_neg h

/-- A new extension goes behind the stem, if what is left of the name still is one. -/
theorem withExtension_eq (hname : name ≠ []) (extension : List Char) :
    withExtension name extension =
      if name = ['.'] then ['.'] else extended (stem name) extension := by
  cases hdivide : divide? name with
  | none =>
    have hstem : stem name = name := by simp [stem, hdivide]
    by_cases hhere : name = ['.']
    · -- a dot alone stays as it is
      rw [if_pos hhere, hhere]
      rfl
    · have hup : name ≠ ['.', '.'] := by
        rintro rfl
        revert hdivide
        decide
      rw [withExtension_of_none (isName_iff.mpr ⟨hname, hhere, hup⟩) hdivide, hstem, if_neg hhere,
        extended_of_ne hhere]
  | some parts =>
    obtain ⟨before, behind⟩ := parts
    obtain ⟨hbefore, hbehind, rfl⟩ := divide?_eq_some_iff.mp hdivide
    have hstem : stem (before ++ '.' :: behind) = before := by simp [stem, hdivide]
    have hkept : stem (before ++ ['.']) = before := by
      simp [stem, divide?_append before (List.not_mem_nil), hbefore]
    have hhere : before ++ '.' :: behind ≠ ['.'] := by simp [List.append_eq_singleton_iff, hbefore]
    rw [if_neg hhere, hstem]
    unfold withExtension
    rw [hdivide]
    dsimp only
    by_cases hdot : before = ['.']
    · -- two dots are no name
      subst hdot
      simp [ofPiece?, extended_here]
    · have hvalid (behind : List Char) : IsName (before ++ '.' :: behind) := by
        have hdot' : before ++ '.' :: behind ≠ ['.'] := by
          simp [List.append_eq_singleton_iff, hbefore]
        refine isName_iff.mpr ⟨by simp, hdot', fun hup => ?_⟩
        exact hdot (eq_dot_of_append_eq hbefore hup)
      have hboth := And.intro (hvalid behind) (hvalid [])
      unfold IsName at hboth
      rw [if_pos (by simpa using hboth), hkept, extended_of_ne hdot]
      simp

/-- A stem has no characters but those of the name. -/
theorem not_mem_stem {c : Char} (h : c ∉ name) : c ∉ stem name := by
  cases hdivide : divide? name with
  | none => simpa [stem, hdivide] using h
  | some parts =>
    obtain ⟨-, -, rfl⟩ := divide?_eq_some_iff.mp hdivide
    have hbefore : c ∉ parts.1 := fun hc => h (List.mem_append_left _ hc)
    simpa [stem, hdivide] using hbefore

/-- A new extension brings no characters but its own and the dot. -/
theorem not_mem_withExtension {c : Char} (hdot : c ≠ '.') (hname : c ∉ name)
    (hextension : c ∉ extension) : c ∉ withExtension name extension := by
  by_cases hne : name = []
  · subst hne
    exact List.not_mem_nil
  rw [withExtension_eq hne, extended]
  split
  · simp [hdot]
  split
  · simp [hdot]
  · simp [not_mem_stem hname, hdot, hextension]

/-- A name of a stem and the extension, in which the stem has no extension of its own. -/
def IsPlain (extension name : List Char) : Prop :=
  ∃ s, s ≠ [] ∧ s ≠ ['.'] ∧ '.' ∉ s.tail ∧ name = s ++ '.' :: extension

/-- A divided name is plain if its stem is not divided again and its extension is the given one. -/
theorem isPlain_append_iff (hbefore : before ≠ []) (hbehind : '.' ∉ behind)
    (hextension : '.' ∉ extension) : IsPlain extension (before ++ '.' :: behind) ↔
      before ≠ ['.'] ∧ divide? before = none ∧ behind = extension := by
  rw [divide?_eq_none_iff]
  constructor
  · rintro ⟨s, hs, hdot, htail, heq⟩
    -- both are divided at their last dot
    have hsame := divide?_append before hbehind
    rw [heq, divide?_append s hextension, if_neg hs, if_neg hbefore] at hsame
    cases hsame
    exact ⟨hdot, htail, rfl⟩
  · rintro ⟨hdot, htail, rfl⟩
    exact ⟨before, hbefore, hdot, htail, rfl⟩

/-- The names that go with themselves. -/
theorem withExtension_stem_eq_iff (hname : IsName name) (hextension : '.' ∉ extension) :
    withExtension (stem name) extension = name ↔ IsPlain extension name := by
  cases hdivide : divide? name with
  | none =>
    -- the extension makes the name longer
    have hstem : stem name = name := by simp [stem, hdivide]
    rw [hstem, withExtension_of_none hname hdivide]
    constructor
    · intro h
      simp at h
    · rintro ⟨s, hs, -, -, rfl⟩
      rw [divide?_append s hextension, if_neg hs] at hdivide
      cases hdivide
  | some parts =>
    obtain ⟨before, behind⟩ := parts
    obtain ⟨hbefore, hbehind, rfl⟩ := divide?_eq_some_iff.mp hdivide
    have hstem : stem (before ++ '.' :: behind) = before := by simp [stem, hdivide]
    rw [hstem, isPlain_append_iff hbefore hbehind hextension, divide?_eq_none_iff,
      ← stem_eq_self_iff, withExtension_eq hbefore]
    by_cases hhere : before = ['.']
    · -- a dot alone is left as it is, and is shorter than the name
      simp [hhere]
    rw [if_neg hhere]
    -- the stem may be cut down to a dot, and then the result is too short
    by_cases hup : stem before = ['.']
    · rw [hup, extended_here]
      constructor
      · intro h
        exact absurd (eq_dot_of_append_eq hbefore h.symm) hhere
      · rintro ⟨-, hsame, -⟩
        exact absurd hsame.symm hhere
    · -- both are divided at their last dot
      rw [extended_of_ne hup]
      constructor
      · intro h
        have hsame := divide?_append before hbehind
        rw [← h, divide?_append _ hextension, if_neg (stem_ne_nil hbefore), if_neg hbefore,
          Option.some_inj, Prod.mk.injEq] at hsame
        exact ⟨hhere, hsame.1, hsame.2.symm⟩
      · rintro ⟨-, hsame, rfl⟩
        rw [hsame]

end YaccGrammar.Path
