import Mathlib.Data.List.Basic
import YaccGrammar.CommandLine

/-!
# What a command line asks for

An accepted command line says where the report goes and whether it includes the first-sets. The
first is told by the values that were given, and the second by the arguments in front of `--`.

## Main statements

- `exists_scan`: an accepted command line is the one that was given.
- `Scan.Gives.destination_eq_stdout_iff`: when the report goes to the standard output.
- `firstSets_eq_false_iff`: when the first-sets are left out.
-/

namespace YaccGrammar.CommandLine

/-- What the arguments give, once all values have been checked. -/
def scan (arguments : List String) : Except Refusal Scan := do
  settle (← arguments.foldlM readArgument {})

/-- The command line asks for what was given. -/
structure Scan.Gives (s : Scan) (command : CommandLine) : Prop where
  file : s.file = some command.file
  unique : s.output = none ∨ s.outputOption = none
  destination : command.destination = destinationOf command.file (s.output <|> s.outputOption)
  firstSets : command.firstSets = s.firstSets

variable {arguments : List String} {command : CommandLine} {s s' : Scan}

/-- If two steps in a row succeed, the first one does and the second one goes on from its result. -/
theorem exists_of_bind_eq_ok {ε α β : Type} {x : Except ε α} {f : α → Except ε β} {b : β}
    (h : (x >>= f) = .ok b) : ∃ a, x = .ok a ∧ f a = .ok b := by
  cases x with
  | error e => cases h
  | ok a => exact ⟨a, rfl, h⟩

/-- A command line that is accepted asks for what the settled scan gives. -/
theorem gives_of_ofScan (h : ofScan s = .ok command) :
    ∃ s', settle s = .ok s' ∧ s'.Gives command := by
  obtain ⟨s', hsettle, h⟩ := exists_of_bind_eq_ok h
  refine ⟨s', hsettle, ?_⟩
  dsimp only at h
  split at h
  · cases h
  next hunique =>
  -- both values together are refused, so one of them is missing
  have hone : s'.output = none ∨ s'.outputOption = none := by
    cases houtput : s'.output with
    | none => exact .inl rfl
    | some path =>
      rw [houtput] at hunique
      exact .inr (Option.not_isSome_iff_eq_none.mp hunique)
  cases hfile : s'.file with
  | none =>
    simp only [hfile] at h
    cases h
  | some file =>
    simp only [hfile] at h
    cases h
    exact ⟨hfile, hone, rfl, rfl⟩

/-- An accepted command line is the one that was given. -/
theorem exists_scan (h : ofArguments arguments = .ok command) :
    ∃ s, scan arguments = .ok s ∧ s.Gives command := by
  obtain ⟨s, hread, h⟩ := exists_of_bind_eq_ok h
  obtain ⟨s', hsettle, hgives⟩ := gives_of_ofScan h
  refine ⟨s', ?_, hgives⟩
  rw [scan, hread]
  exact hsettle

/-- Without a destination the report goes where it does by default. -/
theorem destination_eq_defaultOutput (haccepted : ofArguments arguments = .ok command)
    (hscan : scan arguments = .ok s) (houtput : s.output = none) (hoption : s.outputOption = none) :
    command.destination = .file (defaultOutput command.file) := by
  obtain ⟨s', hscan', hgives⟩ := exists_scan haccepted
  cases hscan.symm.trans hscan'
  rw [hgives.destination, houtput, hoption]
  rfl

/-- The report goes to the standard output if a dash was given for it. -/
theorem Scan.Gives.destination_eq_stdout_iff (h : s.Gives command) :
    command.destination = .stdout ↔ s.output = some "-" ∨ s.outputOption = some "-" := by
  have hdestination (output : Option String) :
      destinationOf command.file output = .stdout ↔ output = some "-" := by
    cases output with
    | none => simp [destinationOf]
    | some path =>
      by_cases hpath : path = "-"
      · simp [destinationOf, hpath]
      · simp [destinationOf, hpath]
  rw [h.destination, hdestination]
  -- of the two values at most one was given
  rcases h.unique with hnone | hnone
  · simp [hnone]
  · simp [hnone]

/-! ## First-sets -/

/-- What an argument leaves as it is that neither is `--` nor concerns first-sets. -/
structure Kept (s s' : Scan) : Prop where
  firstSets : s'.firstSets = s.firstSets
  optionsEnded : s'.optionsEnded = s.optionsEnded

/-- What two arguments leave as it is in a row is as it was. -/
theorem Kept.trans {s₁ s₂ s₃ : Scan} (h : Kept s₁ s₂) (h' : Kept s₂ s₃) : Kept s₁ s₃ where
  firstSets := h'.firstSets.trans h.firstSets
  optionsEnded := h'.optionsEnded.trans h.optionsEnded

/-- A value for the output option concerns nothing else. -/
theorem kept_of_setOutputOption {path : String} (h : setOutputOption path s = .ok s') :
    Kept s s' := by
  unfold setOutputOption at h
  split at h
  · cases h
  split at h
  · cases h
  · cases h
    exact ⟨rfl, rfl⟩

/-- To settle an option that waits for a value concerns the output only. -/
theorem kept_of_settle (h : settle s = .ok s') : Kept s s' := by
  have hrest : Kept s { s with pending := none } := ⟨rfl, rfl⟩
  unfold settle at h
  dsimp only at h
  -- which option waits, and whether a value is there for it
  split at h
  · cases h
    exact hrest
  · split at h
    · cases h
    · cases h
      exact ⟨rfl, rfl⟩
  · split at h
    · cases h
    · cases h
      exact ⟨rfl, rfl⟩
  · cases h
  · exact hrest.trans (kept_of_setOutputOption h)

/-- A file name concerns neither first-sets nor the end of options. -/
theorem kept_of_readName {path : String} (h : readName path s = .ok s') : Kept s s' := by
  unfold readName at h
  split at h
  · obtain ⟨s₁, hsettle, ⟨⟩⟩ := exists_of_bind_eq_ok h
    exact (kept_of_settle hsettle).trans ⟨rfl, rfl⟩
  · obtain ⟨s₁, hsettle, ⟨⟩⟩ := exists_of_bind_eq_ok h
    exact (kept_of_settle hsettle).trans ⟨rfl, rfl⟩
  · cases h

/-- The option for verbose output concerns nothing else. -/
theorem kept_of_readVerbose (h : readVerbose s = .ok s') : Kept s s' := by
  obtain ⟨s₁, hsettle, ⟨⟩⟩ := exists_of_bind_eq_ok h
  exact (kept_of_settle hsettle).trans ⟨rfl, rfl⟩

/-- The output option concerns nothing but the output. -/
theorem kept_of_readOutputOption {value : Option String} (h : readOutputOption value s = .ok s') :
    Kept s s' := by
  obtain ⟨s₁, hsettle, h⟩ := exists_of_bind_eq_ok h
  apply (kept_of_settle hsettle).trans
  cases value with
  | none =>
    cases h
    exact ⟨rfl, rfl⟩
  | some path => exact kept_of_setOutputOption h

/-- Behind the options that end the program nothing is read. -/
theorem readFinal_ne_ok {what : Refusal} : readFinal what s ≠ .ok s' := by
  intro h
  obtain ⟨s₁, -, ⟨⟩⟩ := exists_of_bind_eq_ok h

/-- No short option concerns first-sets, wherever it stands in its group. -/
theorem kept_of_readShort {group : List Char} (h : readShort group s = .ok s') : Kept s s' := by
  induction group generalizing s with
  | nil =>
    cases h
    exact ⟨rfl, rfl⟩
  | cons c group ih =>
    -- the letters one by one: verbose, help, version, output, anything else
    unfold readShort at h
    split at h
    · obtain ⟨s₁, hverbose, h⟩ := exists_of_bind_eq_ok h
      exact (kept_of_readVerbose hverbose).trans (ih h)
    split at h
    · exact absurd h readFinal_ne_ok
    split at h
    · exact absurd h readFinal_ne_ok
    split at h
    · split at h <;> exact kept_of_readOutputOption h
    · cases h

/-- A long option keeps what it does not name. -/
theorem readLong_eq_ok {name : String} {value : Option String}
    (h : readLong name value s = .ok s') :
    s'.optionsEnded = s.optionsEnded ∧
      s'.firstSets = (s.firstSets && (name ≠ "no-first-sets" || value.isSome)) := by
  have hflag {read : Scan → Except Refusal Scan} (h : readFlag read value s = .ok s') :
      value = none ∧ read s = .ok s' := by
    cases value with
    | none => exact ⟨rfl, h⟩
    | some value => cases h
  have hkept (hname : name ≠ "no-first-sets") (hkept : Kept s s') :
      s'.optionsEnded = s.optionsEnded ∧
        s'.firstSets = (s.firstSets && (name ≠ "no-first-sets" || value.isSome)) := by
    simp [hname, hkept.firstSets, hkept.optionsEnded]
  -- the names in the order in which they are tried
  unfold readLong at h
  split at h
  · next hname => exact hkept (by rw [hname]; decide) (kept_of_readOutputOption h)
  split at h
  · next hname => exact hkept (by rw [hname]; decide) (kept_of_readVerbose (hflag h).2)
  split at h
  · next hname =>
    obtain ⟨hvalue, h⟩ := hflag h
    obtain ⟨s₁, hsettle, h⟩ := exists_of_bind_eq_ok h
    split at h
    · cases h
      -- the first-sets are switched off here, and nowhere else
      simp [hname, hvalue, (kept_of_settle hsettle).optionsEnded]
    · cases h
  split at h
  · exact absurd (hflag h).2 readFinal_ne_ok
  split at h
  · exact absurd (hflag h).2 readFinal_ne_ok
  · cases h

/-- An option is `--no-first-sets` if that is its name and it has no value. -/
theorem divideLong_eq_iff (option : List Char) :
    divideLong option = ("no-first-sets", none) ↔ option = "no-first-sets".toList := by
  constructor
  · intro h
    unfold divideLong at h
    dsimp only at h
    split at h
    · -- with a value the option is not the bare name
      exact absurd (congrArg Prod.snd h) (Option.some_ne_none _)
    · next hdrop =>
      have hname := congrArg (fun p => p.1.toList) h
      simp only [String.toList_ofList] at hname
      rw [← List.takeWhile_append_dropWhile (p := fun c => decide (c ≠ '=')) (l := option), hname,
        hdrop, List.append_nil]
  · rintro rfl
    decide

/-- Behind `--` every argument is a file name. -/
theorem kept_of_readArgument {argument : String} (hended : s.optionsEnded = true)
    (h : readArgument s argument = .ok s') : Kept s s' := by
  rw [readArgument, if_pos hended] at h
  exact kept_of_readName h

/-- In front of `--` an argument is an option if it begins with a dash. -/
theorem readArgument_eq_ok {argument : String} (hended : s.optionsEnded = false)
    (h : readArgument s argument = .ok s') :
    s'.optionsEnded = decide (argument = "--") ∧
      s'.firstSets = (s.firstSets && argument ≠ "--no-first-sets") := by
  have hargument (text : String) : argument = text ↔ argument.toList = text.toList :=
    String.toList_inj.symm
  have hkept (hdashes : ∀ option, argument.toList ≠ '-' :: '-' :: option) (hkept : Kept s s') :
      s'.optionsEnded = decide (argument = "--") ∧
        s'.firstSets = (s.firstSets && argument ≠ "--no-first-sets") := by
    have hmark : argument ≠ "--" := mt (hargument _).mp (hdashes _)
    have hflag : argument ≠ "--no-first-sets" := mt (hargument _).mp (hdashes _)
    simp [hmark, hflag, hkept.firstSets, hkept.optionsEnded, hended]
  rw [readArgument, if_neg (by rw [hended]; exact Bool.false_ne_true)] at h
  -- the mark `--`, a long option, a group of short ones, or a name
  split at h
  · next hlist =>
    cases h
    have hmark : argument = "--" := (hargument _).mpr hlist
    subst hmark
    simp
  · next option hnot hlist =>
    -- it is `--no-first-sets` if its name is that and no value is attached to it
    obtain ⟨hoptions, hfirst⟩ := readLong_eq_ok h
    have hmark : argument ≠ "--" := by
      rw [Ne, hargument, hlist]
      intro heq
      exact hnot (List.cons.inj (List.cons.inj heq).2).2
    have hflag : argument = "--no-first-sets" ↔
        (divideLong option).1 = "no-first-sets" ∧ (divideLong option).2 = none := by
      have hpair : divideLong option = ("no-first-sets", none) ↔
          (divideLong option).1 = "no-first-sets" ∧ (divideLong option).2 = none := Prod.ext_iff
      rw [← hpair, divideLong_eq_iff, hargument, hlist]
      exact ⟨fun heq => (List.cons.inj (List.cons.inj heq).2).2, fun heq => heq ▸ rfl⟩
    refine ⟨by rw [hoptions, hended, decide_eq_false hmark], ?_⟩
    rw [hfirst]
    congr 1
    rw [Bool.eq_iff_iff]
    simp only [ne_eq, Bool.or_eq_true, decide_eq_true_eq, hflag, Option.isSome_iff_ne_none]
    exact Decidable.not_and_iff_not_or_not.symm
  · next c group hnot hnot' hlist =>
    refine hkept (fun option heq => ?_) (kept_of_readShort h)
    rw [hlist] at heq
    exact hnot' (List.cons.inj (List.cons.inj heq).2).1
  · next hnot hnot' hnot'' =>
    refine hkept hnot' ?_
    split at h
    · cases h
      exact ⟨rfl, rfl⟩
    · exact kept_of_readName h

/-- Reading arguments behind `--`. -/
theorem kept_of_foldlM (hended : s.optionsEnded = true)
    (h : arguments.foldlM readArgument s = .ok s') : Kept s s' := by
  induction arguments generalizing s with
  | nil =>
    cases h
    exact ⟨rfl, rfl⟩
  | cons argument arguments ih =>
    rw [List.foldlM_cons] at h
    obtain ⟨s₁, hargument, h⟩ := exists_of_bind_eq_ok h
    have hkept := kept_of_readArgument hended hargument
    exact hkept.trans (ih (hkept.optionsEnded.trans hended) h)

/-- Reading arguments until `--`, and then the others. -/
theorem firstSets_of_foldlM (hended : s.optionsEnded = false)
    (h : arguments.foldlM readArgument s = .ok s') : s'.firstSets =
      (s.firstSets && "--no-first-sets" ∉ arguments.takeWhile fun argument => argument ≠ "--") := by
  induction arguments generalizing s with
  | nil =>
    cases h
    simp
  | cons argument arguments ih =>
    rw [List.foldlM_cons] at h
    obtain ⟨s₁, hargument, h⟩ := exists_of_bind_eq_ok h
    obtain ⟨hended₁, hfirst⟩ := readArgument_eq_ok hended hargument
    -- behind the mark no argument is an option any more
    by_cases hmark : argument = "--"
    · rw [(kept_of_foldlM (by rw [hended₁, decide_eq_true hmark]) h).firstSets, hfirst]
      subst hmark
      simp
    · rw [ih (by rw [hended₁, decide_eq_false hmark]) h, hfirst]
      simp [hmark, eq_comm, Bool.and_assoc]

/-- The first-sets are left out if `--no-first-sets` is given in front of any `--`. -/
theorem firstSets_eq_false_iff (h : ofArguments arguments = .ok command) :
    command.firstSets = false ↔
      "--no-first-sets" ∈ arguments.takeWhile fun argument => argument ≠ "--" := by
  obtain ⟨s, hscan, hgives⟩ := exists_scan h
  obtain ⟨s₁, hread, hsettle⟩ := exists_of_bind_eq_ok hscan
  rw [hgives.firstSets, (kept_of_settle hsettle).firstSets, firstSets_of_foldlM rfl hread]
  simp

end YaccGrammar.CommandLine
