import YaccGrammar.Proofs.CommandLine
import YaccGrammar.Proofs.Path

/-!
# Names of reports

Where no destination is given, the report is named for the stem of the grammar file, in the working
directory. The stem may have dots of its own, and the extension of reports takes the place of
whatever stands behind the last one. So two grammar files have the same report as soon as their
stems have the same stem, and a stem of which only dots are left names no file.

## Main statements

- `Path.withExtension_eq_append_iff`: when the extension only goes behind a stem.
- `Path.withExtension_eq_iff`: when two stems get the same name.
- `destination_of_undirected`: where the report goes if no destination is given.
-/

namespace YaccGrammar

namespace Path

variable {s s' extension : List Char}

/-- What an extension is put behind is longer than a dot. -/
theorem one_lt_length_extended (hs : s ≠ []) : 1 < (extended s extension).length := by
  by_cases hhere : s = ['.']
  · rw [hhere, extended_here]
    decide
  · have hpos := List.length_pos_iff.mpr hs
    rw [extended_of_ne hhere, List.length_append, List.length_cons]
    omega

/-- A dot alone is not a stem with something behind it. -/
theorem here_ne_extended (hs : s ≠ []) : ['.'] ≠ extended s extension := by
  intro h
  have hlong : 1 < ['.'].length := h ▸ one_lt_length_extended hs
  contradiction

/-- Two dots are no name and an extension. -/
theorem up_ne_append (hs : s ≠ []) (hextension : extension ≠ []) :
    ['.', '.'] ≠ s ++ '.' :: extension := by
  intro h
  obtain rfl := eq_dot_of_append_eq hs h.symm
  exact hextension (by simpa using h)

/-- An extension keeps different stems apart. -/
theorem extended_eq_iff (hs : s ≠ []) (hs' : s' ≠ []) (hextension : extension ≠ []) :
    extended s extension = extended s' extension ↔ s = s' := by
  refine ⟨fun h => ?_, fun h => h ▸ rfl⟩
  -- a dot alone is told apart from every other stem by its extension
  by_cases hhere : s = ['.']
  · by_cases hhere' : s' = ['.']
    · rw [hhere, hhere']
    · rw [hhere, extended_here, extended_of_ne hhere'] at h
      exact absurd h (up_ne_append hs' hextension)
  · by_cases hhere' : s' = ['.']
    · rw [hhere', extended_here, extended_of_ne hhere] at h
      exact absurd h.symm (up_ne_append hs hextension)
    · rwa [extended_of_ne hhere, extended_of_ne hhere', List.append_cancel_right_eq] at h

/-- The extension only goes behind a stem that is no dot alone and has no extension of its own. -/
theorem withExtension_eq_append_iff (hs : s ≠ []) (hextension : extension ≠ []) :
    withExtension s extension = s ++ '.' :: extension ↔ s ≠ ['.'] ∧ '.' ∉ s.tail := by
  rw [withExtension_eq hs, ← stem_eq_self_iff]
  by_cases hhere : s = ['.']
  · simp [hhere]
  -- the stem is kept exactly if it is its own stem
  rw [if_neg hhere, ← extended_of_ne hhere, extended_eq_iff (stem_ne_nil hs) hs hextension]
  exact (and_iff_right hhere).symm

/-- Two stems get the same name if they have the same stem, unless one of them is a dot alone. -/
theorem withExtension_eq_iff (hs : s ≠ []) (hs' : s' ≠ []) (hextension : extension ≠ []) :
    withExtension s extension = withExtension s' extension ↔
      stem s = stem s' ∧ (s = ['.'] ↔ s' = ['.']) := by
  have hne := stem_ne_nil hs
  have hne' := stem_ne_nil hs'
  rw [withExtension_eq hs, withExtension_eq hs']
  -- a dot alone stays as it is, and nothing else becomes one
  by_cases hhere : s = ['.']
  · by_cases hhere' : s' = ['.']
    · simp [hhere, hhere']
    · rw [if_pos hhere, if_neg hhere']
      exact ⟨fun h => absurd h (here_ne_extended hne'), fun h => absurd (h.2.mp hhere) hhere'⟩
  · by_cases hhere' : s' = ['.']
    · rw [if_neg hhere, if_pos hhere']
      exact ⟨fun h => absurd h.symm (here_ne_extended hne), fun h => absurd (h.2.mpr hhere') hhere⟩
    · rw [if_neg hhere, if_neg hhere', extended_eq_iff hne hne' hextension]
      simp [hhere, hhere']

end Path

namespace CommandLine

variable {arguments arguments' : List String} {command command' : CommandLine}
  {name name' : List Char}

/-- The arguments ask for a report on a file of the given name and do not say where it goes. -/
structure Undirected (arguments : List String) (command : CommandLine) (name : List Char) :
    Prop where
  accepted : ofArguments arguments = .ok command
  scan : ∃ s, scan arguments = .ok s ∧ s.output = none ∧ s.outputOption = none
  fileName : Path.fileName? command.file = some name

namespace Undirected

/-- The report is named for the stem of the file. -/
theorem destination_eq (h : Undirected arguments command name) :
    command.destination =
      .file (String.ofList (Path.withExtension (Path.stem name) "out".toList)) := by
  obtain ⟨s, hscan, houtput, hoption⟩ := h.scan
  rw [destination_eq_defaultOutput h.accepted hscan houtput hoption, defaultOutput,
    Path.siblingOfStem, h.fileName]

/-- The file of the grammar has a name, and so a stem. -/
theorem stem_ne_nil (h : Undirected arguments command name) : Path.stem name ≠ [] :=
  Path.stem_ne_nil (Path.isName_iff.mp (Path.isName_of_fileName? h.fileName).1).1

end Undirected

/-- Where the report goes if no destination is given: into the working directory, under the stem of
the file without what stands behind its last dot, and with the extension of reports. That is the
stem with the extension only if the stem has no dot behind its first character and is no dot alone.
So the reports on two files are the same if the stems of the files have the same stem. -/
theorem destination_of_undirected (h : Undirected arguments command name) :
    (∃ report, command.destination = .file (String.ofList report) ∧ '/' ∉ report ∧
      report = (if Path.stem name = ['.'] then ['.']
        else if Path.stem (Path.stem name) = ['.'] then ['.', '.']
        else Path.stem (Path.stem name) ++ ".out".toList) ∧
      (report = Path.stem name ++ ".out".toList ↔
        Path.stem name ≠ ['.'] ∧ '.' ∉ (Path.stem name).tail)) ∧
    ∀ arguments' command' name', Undirected arguments' command' name' →
      (command'.destination = command.destination ↔
        Path.stem (Path.stem name') = Path.stem (Path.stem name) ∧
          (Path.stem name' = ['.'] ↔ Path.stem name = ['.'])) := by
  have hout : "out".toList ≠ [] := by decide
  constructor
  · refine ⟨_, h.destination_eq, ?_, Path.withExtension_eq h.stem_ne_nil _,
      Path.withExtension_eq_append_iff h.stem_ne_nil hout⟩
    exact Path.not_mem_withExtension (by decide)
      (Path.not_mem_stem (Path.isName_of_fileName? h.fileName).2) (by decide)
  · -- both names are known, so the question is when they agree
    intro arguments' command' name' h'
    rw [h.destination_eq, h'.destination_eq, Destination.file.injEq, String.ofList_inj]
    exact Path.withExtension_eq_iff h'.stem_ne_nil h.stem_ne_nil hout

/-- A stem without dots. -/
theorem destination_of_undirected_plain :
    let command : CommandLine := ⟨"calc.y", .file "calc.out", .warn, true⟩
    Undirected ["calc.y"] command "calc.y".toList ∧
      ∃ report, command.destination = .file (String.ofList report) ∧
        report = "calc".toList ++ ".out".toList := by
  intro command
  have hplain : Undirected ["calc.y"] command "calc.y".toList :=
    ⟨by decide, ⟨{ file := some "calc.y", names := 1 }, by decide, rfl, rfl⟩, by decide⟩
  obtain ⟨⟨report, hdestination, -, -, happended⟩, -⟩ := destination_of_undirected hplain
  exact ⟨hplain, report, hdestination, happended.mpr ⟨by decide, by decide⟩⟩

/-- Two stems that differ behind their dots, and one report, which is named for neither. -/
theorem destination_shared :
    let command : CommandLine := ⟨"a.b.y", .file "a.out", .warn, true⟩
    let command' : CommandLine := ⟨"a.c.y", .file "a.out", .warn, true⟩
    Undirected ["a.b.y"] command "a.b.y".toList ∧ Undirected ["a.c.y"] command' "a.c.y".toList ∧
      Path.stem "a.b.y".toList = "a.b".toList ∧ Path.stem "a.c.y".toList = "a.c".toList ∧
      command.destination ≠ .file "a.b.out" ∧ command.destination = command'.destination := by
  intro command command'
  have h : Undirected ["a.b.y"] command "a.b.y".toList :=
    ⟨by decide, ⟨{ file := some "a.b.y", names := 1 }, by decide, rfl, rfl⟩, by decide⟩
  have h' : Undirected ["a.c.y"] command' "a.c.y".toList :=
    ⟨by decide, ⟨{ file := some "a.c.y", names := 1 }, by decide, rfl, rfl⟩, by decide⟩
  exact ⟨h, h', by decide, by decide, by decide, rfl⟩

end CommandLine

end YaccGrammar
