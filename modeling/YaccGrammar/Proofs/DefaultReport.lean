import YaccGrammar.Proofs.Program

/-!
# Reports without a destination

Where no destination is given, the report goes to a file in the working directory that is named for
the grammar file. It can be the grammar file: if that is in the working directory and has the name
of a report already. Otherwise a run leaves the grammar file as it is.

## Main statements

- `readFile_put_default`: a grammar file that is not its own report is read as before.
- `target_default`: a grammar file that is its own report is opened to be written.
- `grammar_of_default_destination`: what becomes of the grammar file in a run.
-/

namespace YaccGrammar

namespace FileSystem

variable {fs : FileSystem} {name : List Char} {place : List String} {content : ByteArray}

/-- A name begins in the working directory. -/
theorem startOf_of_not_mem (fs : FileSystem) (hslash : '/' ∉ name) :
    fs.startOf (String.ofList name) = fs.cwd := by
  have hhead : name.head? ≠ some '/' := fun h => hslash (List.mem_of_head? h)
  rw [startOf, String.toList_ofList, if_neg hhead]

/-- What is opened under a name is in the working directory. -/
theorem Opens.eq_of_name (hslash : '/' ∉ name) (h : fs.Opens (String.ofList name) place) :
    place = fs.cwd ++ [String.ofList name] := by
  cases h with
  | @intro before last directory _ hpieces _ _ hwalk _ _ =>
    -- a name without a slash is the only piece of its path
    obtain ⟨rfl, rfl⟩ : before = [] ∧ last = name := by
      rw [String.toList_ofList, Path.pieces_of_not_mem hslash] at hpieces
      simpa [List.append_eq_singleton_iff] using hpieces.symm
    rw [fs.startOf_of_not_mem hslash] at hwalk
    cases hwalk
    rfl

/-- A file in the working directory can be opened under its name. -/
theorem target_of_name (hname : Path.IsName name) (hslash : '/' ∉ name)
    (hshort : (String.ofList name).utf8ByteSize ≤ nameLimit)
    (hfile : fs.find? (fs.cwd ++ [String.ofList name]) = some (.file content)) :
    fs.target (String.ofList name) = .ok (fs.cwd ++ [String.ofList name]) := by
  obtain ⟨hne, -, -⟩ := Path.isName_iff.mp hname
  have hlast : name.getLast? ≠ some '/' := fun h => hslash (List.mem_of_getLast? h)
  have hpath : ¬ pathLimit < (String.ofList name).utf8ByteSize :=
    Nat.not_lt.mpr (Nat.le_trans hshort (by decide))
  have hslot : fs.slot fs.cwd (String.ofList name) = .ok (fs.cwd ++ [String.ofList name]) :=
    slot_eq_ok_iff.mpr ⟨hshort, by simp [hfile], rfl⟩
  have hnamed : [name].reverse.dropWhile (fun piece => decide (piece = [])) = [name] := by
    simp [hne]
  rw [Path.IsName] at hname
  unfold target
  dsimp only
  rw [if_neg hpath, String.toList_ofList, Path.pieces_of_not_mem hslash,
    fs.startOf_of_not_mem hslash, hnamed]
  dsimp only [List.reverse_nil, walk, Bind.bind, Except.bind]
  rw [find?_above (List.prefix_refl fs.cwd)]
  simp [hlast, hname, hslot]

/-- The file is in the working directory, and has the name that its report would have. -/
def IsOwnReport (fs : FileSystem) (file : String) : Prop :=
  ∃ name, Path.IsPlain ['o', 'u', 't'] name ∧
    fs.resolve file = .ok (fs.cwd ++ [String.ofList name])

variable {file : String} {grammar : ByteArray}

/-- The report on a file that can be read has the name that goes with the name of the file. -/
theorem exists_name_of_readFile (hread : fs.readFile file = .ok grammar) :
    ∃ directory name, Path.IsName name ∧ '/' ∉ name ∧
      (String.ofList name).utf8ByteSize ≤ nameLimit ∧
      CommandLine.defaultOutput file =
        String.ofList (Path.withExtension (Path.stem name) ['o', 'u', 't']) ∧
      fs.resolve file = .ok (directory ++ [String.ofList name]) ∧
      fs.find? (directory ++ [String.ofList name]) = some (.file grammar) := by
  obtain ⟨before, name, directory, hpieces, hname, hshort, hpath, hfile⟩ :=
    exists_of_readFile hread
  have hslash : '/' ∉ name := by
    apply Path.not_mem_of_mem_pieces
    rw [hpieces]
    exact List.mem_concat_self
  refine ⟨directory, name, hname, hslash, hshort, ?_, hpath, hfile⟩
  rw [CommandLine.defaultOutput, Path.siblingOfStem, Path.fileName?_of_pieces hpieces hname]
  rfl

/-- A grammar file that is not its own report is read as before, whatever is put in the place of the
report. -/
theorem readFile_put_default (hread : fs.readFile file = .ok grammar)
    (hother : ¬ fs.IsOwnReport file)
    (htarget : fs.target (CommandLine.defaultOutput file) = .ok place) (content : ByteArray) :
    (fs.put place (.file content)).readFile file = .ok grammar := by
  obtain ⟨directory, name, hname, hslash, -, hdefault, hpath, hfile⟩ :=
    exists_name_of_readFile hread
  rw [hdefault] at htarget
  have hopens := opens_of_target htarget
  have hplace := hopens.eq_of_name
    (Path.not_mem_withExtension (by decide) (Path.not_mem_stem hslash) (by decide))
  have hputs := hopens.putsFile content
  refine readFile_eq_ok_iff.mpr ⟨_, hputs.resolve_eq hpath, ?_⟩
  -- the file that is stored is another one, as the names differ or the directories do
  have hplaces : directory ++ [String.ofList name] ≠ place := by
    rw [hplace]
    intro hsame
    obtain ⟨rfl, hlast⟩ := List.append_inj' hsame rfl
    have hself := String.ofList_injective (List.singleton_inj.mp hlast).symm
    exact hother ⟨name, (Path.withExtension_stem_eq_iff hname (by decide)).mp hself, hpath⟩
  rw [find?_put hputs.no_directory, if_neg hplaces]
  exact hfile

/-- A grammar file that is its own report is opened to be written: the report goes where the path of
the grammar leads. -/
theorem target_default (hread : fs.readFile file = .ok grammar) (hown : fs.IsOwnReport file) :
    ∃ place, fs.target (CommandLine.defaultOutput file) = .ok place ∧
      fs.resolve file = .ok place := by
  obtain ⟨directory, name, hname, hslash, hshort, hdefault, hpath, hfile⟩ :=
    exists_name_of_readFile hread
  obtain ⟨name', hplain, hpath'⟩ := hown
  -- the file is in the working directory, so its name is the last component
  obtain ⟨rfl, hlast⟩ := List.append_inj' (Except.ok.inj (hpath.symm.trans hpath')) rfl
  obtain rfl := String.ofList_injective (List.singleton_inj.mp hlast)
  -- the report has the name that the grammar has
  rw [(Path.withExtension_stem_eq_iff hname (by decide)).mpr hplain] at hdefault
  refine ⟨_, ?_, hpath⟩
  rw [hdefault]
  exact target_of_name hname hslash hshort hfile

/-- What is put in the place of its report is read instead of a grammar file that is its own report.
-/
theorem readFile_put_own (htarget : fs.target (CommandLine.defaultOutput file) = .ok place)
    (hpath : fs.resolve file = .ok place) (content : ByteArray) :
    (fs.put place (.file content)).readFile file = .ok content := by
  have hputs := (opens_of_target htarget).putsFile content
  refine readFile_eq_ok_iff.mpr ⟨place, hputs.resolve_eq hpath, ?_⟩
  rw [find?_put hputs.no_directory, if_pos rfl]

end FileSystem

/-! ## Reports -/

section

open CommandLine (exists_of_bind_eq_ok)

variable {g : Grammar} {file report : String} {firstSets : Bool} {all : List String}

/-- The first line of a report names the file. -/
theorem Report.exists_title (h : lines g file firstSets = .ok all) :
    ∃ others, all = ("// Reprint of input file \"" ++ file ++ "\".") :: others := by
  obtain ⟨reprint, hreprint, h⟩ := exists_of_bind_eq_ok h
  obtain ⟨view, -, hreprint⟩ := exists_of_bind_eq_ok hreprint
  obtain ⟨columns, -, hreprint⟩ := exists_of_bind_eq_ok hreprint
  cases hreprint
  split at h
  · obtain ⟨sets, -, h⟩ := exists_of_bind_eq_ok h
    cases h
    exact ⟨_, rfl⟩
  · cases h
    exact ⟨_, rfl⟩

/-- Every report begins with a comment. -/
theorem Report.head?_of_text (h : text g file firstSets = .ok report) :
    report.toList.head? = some '/' := by
  rw [text] at h
  cases hall : lines g file firstSets with
  | error fault =>
    rw [hall] at h
    cases h
  | ok all =>
    obtain ⟨others, rfl⟩ := exists_title hall
    rw [hall] at h
    cases h
    simp [render]

end

/-! ## Runs -/

namespace Program

open Reading FileSystem

variable {fs : FileSystem} {command : CommandLine} {arguments : List String} {d : Document}
  {s : CommandLine.Scan}

/-- A grammar was read from a file. -/
theorem exists_readFile_of_parseFile {file : String} (h : parseFile fs file = .ok (.ok d)) :
    ∃ grammar, fs.readFile file = .ok grammar := by
  unfold parseFile parseContent at h
  cases hread : fs.readFile file with
  | error failure =>
    rw [hread] at h
    cases h
  | ok grammar => exact ⟨grammar, rfl⟩

/-- The files after a run that opens a file for the report: that file holds what was written,
whether that is all of the report or not. -/
theorem files_run_of_target (hparse : parseFile fs command.file = .ok (.ok d)) {path : String}
    (hdestination : command.destination = .file path) {place : List String}
    (htarget : fs.target path = .ok place) :
    (run fs command).files = fs.put place (.file
      (Report.write d.grammar.analyze command.file command.firstSets).text.toUTF8) := by
  rw [run_of_document hparse, publish, Script.run_tell, Script.run_log, hdestination,
    Script.run_deliver_of_ok path _ fs htarget]
  dsimp only
  cases (Report.write d.grammar.analyze command.file command.firstSets).fault with
  | none => rfl
  | some fault => rfl

section

/- No destination was given. -/
variable (hdestination : command.destination =
  .file (CommandLine.defaultOutput command.file))

include hdestination

/-- A run leaves a grammar file as it is that is not its own report. -/
theorem readFile_run (hother : ¬ fs.IsOwnReport command.file) :
    (run fs command).files.readFile command.file = fs.readFile command.file := by
  obtain ⟨o, hparse⟩ := exists_parseFile fs command.file
  cases o with
  -- nothing is written if reading was given up
  | error errors => rw [run_of_error hparse]
  | ok d =>
    -- only what is written to a file that can be opened changes the files
    obtain ⟨grammar, hread⟩ := exists_readFile_of_parseFile hparse
    cases htarget : fs.target (CommandLine.defaultOutput command.file) with
    | error failure => rw [run_of_cannotOpen hparse ⟨_, hdestination, htarget⟩]
    | ok place =>
      rw [files_run_of_target hparse hdestination htarget, hread]
      exact readFile_put_default hread hother htarget _

/-- A run replaces a grammar file that is its own report by what it writes, if the grammar is read
to its end. -/
theorem readFile_run_of_own (hown : fs.IsOwnReport command.file)
    (hparse : parseFile fs command.file = .ok (.ok d)) :
    (∀ failure, ¬ CannotOpen fs command failure) ∧
      (run fs command).files.readFile command.file = .ok
        (Report.write d.grammar.analyze command.file command.firstSets).text.toUTF8 := by
  obtain ⟨grammar, hread⟩ := exists_readFile_of_parseFile hparse
  obtain ⟨place, htarget, hpath⟩ := target_default hread hown
  constructor
  · -- the file can be opened, because it is there already
    rintro failure ⟨path, hpath', hfailure⟩
    rw [hdestination, Destination.file.injEq] at hpath'
    rw [← hpath', htarget] at hfailure
    cases hfailure
  · rw [files_run_of_target hparse hdestination htarget]
    exact readFile_put_own htarget hpath _

/-- The report takes the place of a grammar file that is its own report, if the names fit. -/
theorem exists_report_of_own (hown : fs.IsOwnReport command.file)
    (hparse : parseFile fs command.file = .ok (.ok d)) (hfit : Guarded.NamesFit d.grammar) :
    ∃ report, Report.text d.grammar.analyze command.file command.firstSets = .ok report ∧
      (run fs command).ending = .status 0 ∧
      (run fs command).files.readFile command.file = .ok report.toUTF8 := by
  obtain ⟨hopen, hread⟩ := readFile_run_of_own hdestination hown hparse
  obtain ⟨text, htext⟩ := exists_text_of_parseFile hparse
  obtain ⟨report, hreport⟩ := exists_report htext hfit command.file command.firstSets
  rw [Report.write, hreport] at hread
  exact ⟨report, hreport, (delivers_of_report hparse hopen hreport).ending_eq, hread⟩

/-- The beginning of a report takes its place, if a name fits in no field. -/
theorem beginning_of_own (hown : fs.IsOwnReport command.file)
    (hparse : parseFile fs command.file = .ok (.ok d)) (hwide : ¬ Guarded.NamesFit d.grammar) :
    (run fs command).ending = .fault .wideField ∧
      (run fs command).files.readFile command.file = .ok (beginning command.file).toUTF8 := by
  obtain ⟨hopen, hread⟩ := readFile_run_of_own hdestination hown hparse
  obtain ⟨text, htext⟩ := exists_text_of_parseFile hparse
  rw [write_of_wideName htext hwide] at hread
  exact ⟨(delivers_of_wide hparse hopen hwide).ending_eq, hread⟩

end

/-- What becomes of the grammar file where no destination is given. If it is not its own report, it
is read after the run as it was before, however the run ends. If it is, it is left as it is only if
it cannot be read to its end. Otherwise the report takes its place, or the beginning of a report if
a name in it fits in no field. -/
theorem grammar_of_default_destination (haccepted : CommandLine.ofArguments arguments = .ok command)
    (hscan : CommandLine.scan arguments = .ok s) (houtput : s.output = none)
    (hoption : s.outputOption = none) (fs : FileSystem) :
    (¬ fs.IsOwnReport command.file →
      (run fs command).files.readFile command.file = fs.readFile command.file) ∧
    (fs.IsOwnReport command.file →
      (∀ errors, parseFile fs command.file = .ok (.error errors) →
        run fs command = ⟨.status 1, "", errors.map Diagnostic.render, fs⟩) ∧
      ∀ d, parseFile fs command.file = .ok (.ok d) →
        (Guarded.NamesFit d.grammar → ∃ report,
          Report.text d.grammar.analyze command.file command.firstSets = .ok report ∧
          (run fs command).ending = .status 0 ∧
          (run fs command).files.readFile command.file = .ok report.toUTF8) ∧
        (¬ Guarded.NamesFit d.grammar →
          (run fs command).ending = .fault .wideField ∧
          (run fs command).files.readFile command.file =
            .ok (beginning command.file).toUTF8)) := by
  have hdestination := CommandLine.destination_eq_defaultOutput haccepted hscan houtput hoption
  refine ⟨fun hother => ?_, fun hown => ⟨fun errors hparse => ?_, fun d hparse => ⟨?_, ?_⟩⟩⟩
  · exact readFile_run hdestination hother
  · exact run_of_error hparse
  · exact exists_report_of_own hdestination hown hparse
  · exact beginning_of_own hdestination hown hparse

/-- A grammar file beside its report is not touched. -/
theorem grammar_of_default_destination_beside :
    let fs : FileSystem := ⟨[(["work", "calc.y"], .file "%\x7b%\x7d%%s:A;".toUTF8)], ["work"]⟩
    let command : CommandLine := ⟨"/work/calc.y", .file "calc.out", .warn, true⟩
    CommandLine.ofArguments ["/work/calc.y"] = .ok command ∧
      (run fs command).files.readFile "/work/calc.y" = .ok "%\x7b%\x7d%%s:A;".toUTF8 := by
  intro fs command
  have haccepted : CommandLine.ofArguments ["/work/calc.y"] = .ok command := by decide
  have hscan : CommandLine.scan ["/work/calc.y"] =
      .ok { file := some "/work/calc.y", names := 1 } := by decide
  have hother : ¬ fs.IsOwnReport "/work/calc.y" := by
    rintro ⟨name, ⟨s, -, -, -, rfl⟩, hpath⟩
    have hplace : fs.resolve "/work/calc.y" = .ok ["work", "calc.y"] := rfl
    -- the name of a report ends in another letter
    rw [hplace, Except.ok.injEq, show fs.cwd = ["work"] from rfl, List.singleton_append,
      List.cons.injEq, List.cons.injEq] at hpath
    have hlast := congrArg (fun n => n.toList.getLast?) hpath.2.1
    simp at hlast
  have hfile (content : ByteArray) :
      FileSystem.readFile ⟨[(["work", "calc.y"], .file content)], ["work"]⟩ "/work/calc.y" =
        .ok content := rfl
  refine ⟨haccepted, ?_⟩
  exact ((grammar_of_default_destination haccepted hscan rfl rfl fs).1 hother).trans (hfile _)

/-- A grammar file that is its own report. -/
theorem grammar_overwritten :
    let fs : FileSystem := ⟨[(["work", "calc.out"], .file "%\x7b%\x7d%%s:A;".toUTF8)], ["work"]⟩
    let command : CommandLine := ⟨"calc.out", .file "calc.out", .warn, true⟩
    CommandLine.ofArguments ["calc.out"] = .ok command ∧
      (∃ s, CommandLine.scan ["calc.out"] = .ok s ∧ s.output = none ∧ s.outputOption = none) ∧
      (run fs command).ending = .status 0 ∧
      (run fs command).files.readFile "calc.out" ≠ fs.readFile "calc.out" := by
  intro fs command
  have haccepted : CommandLine.ofArguments ["calc.out"] = .ok command := by decide
  have hscan : CommandLine.scan ["calc.out"] = .ok { file := some "calc.out", names := 1 } := by
    decide
  refine ⟨haccepted, ⟨_, hscan, rfl, rfl⟩, ?_⟩
  have hfile (content : ByteArray) :
      FileSystem.readFile ⟨[(["work", "calc.out"], .file content)], ["work"]⟩ "calc.out" =
        .ok content := rfl
  have hown : fs.IsOwnReport "calc.out" :=
    ⟨"calc.out".toList, ⟨"calc".toList, by decide, by decide, by decide, rfl⟩, rfl⟩
  obtain ⟨d, hd, hnames⟩ : ∃ d, parse "calc.out" "%\x7b%\x7d%%s:A;" = .ok (.ok d) ∧
      d.grammar.table.names = ["s", "A"] := ⟨_, rfl, rfl⟩
  have hparse : parseFile fs "calc.out" = .ok (.ok d) := (parseFile_of_text (hfile _)).trans hd
  have hfit : Guarded.NamesFit d.grammar := by
    rw [Guarded.NamesFit, hnames]
    decide
  have hdestination : command.destination =
      .file (CommandLine.defaultOutput command.file) := by decide
  obtain ⟨report, hreport, hending, hread⟩ := exists_report_of_own hdestination hown hparse hfit
  refine ⟨hending, ?_⟩
  have hbefore : fs.readFile "calc.out" = .ok "%\x7b%\x7d%%s:A;".toUTF8 := hfile _
  rw [hread, hbefore]
  -- the report is another text, as it begins with a comment
  intro hsame
  have htext : report = "%\x7b%\x7d%%s:A;" := by
    have hbytes := congrArg FileSystem.textOf (Except.ok.inj hsame)
    rw [FileSystem.textOf_toUTF8, FileSystem.textOf_toUTF8] at hbytes
    exact Except.ok.inj hbytes
  have hhead := Report.head?_of_text hreport
  rw [htext] at hhead
  revert hhead
  decide

end Program

end YaccGrammar
