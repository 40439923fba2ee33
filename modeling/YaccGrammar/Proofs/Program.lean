import YaccGrammar.Proofs.CommandLine
import YaccGrammar.Proofs.FileSystem
import YaccGrammar.Proofs.Guarded.Pipeline
import YaccGrammar.Program

/-!
# What a run does

A run goes one of three ways: the grammar cannot be read to its end, the file of the report cannot
be opened, or the report is written. In the first two no file is touched, and in the third none but
the one that the command line names. Whenever a grammar is read, there is a report on it, unless one
of its names fits in no field. Then the report is begun, and the run ends at the fault.

## Main statements

- `exists_report`, `write_of_wideName`: what is written of a report.
- `run_of_arguments`: what a run does, for all files and all accepted arguments.
- `run_refused_of_wideName`: a file that is read but has no report.
-/

namespace YaccGrammar

/-- The bytes of a text are those of no other. -/
theorem FileSystem.textOf_toUTF8 (text : String) : textOf text.toUTF8 = .ok text := by
  have hvalid : String.fromUTF8? text.toUTF8 = some text := dif_pos text.isValidUTF8
  rw [textOf, hvalid]

namespace Program

open Reading

variable {fs : FileSystem} {command : CommandLine} {arguments : List String} {d : Document}
  {errors : List Diagnostic}

/-! ## Reading -/

/-- What reading a grammar file yields: a document, or the diagnostics of a reading that was given
up. -/
def parseFile (fs : FileSystem) (file : String) :
    Except Fault (Except (List Diagnostic) Document) :=
  (parseContent file (fs.readFile file)).map Prod.snd

/-- What is read from a file that holds a text is what is read from the text. -/
theorem parseFile_of_text {file text : String} (h : fs.readFile file = .ok text.toUTF8) :
    parseFile fs file = parse file text := by
  rw [parseFile, h, parseContent, Except.bind, FileSystem.textOf_toUTF8, parse]
  dsimp only
  -- the log tells of the text, and what is read from it is the same
  cases readText file text with
  | error fault => rfl
  | ok run => rfl

/-- Something is logged while a grammar file is read, or nothing. -/
theorem exists_entries {file : String} {o : Except (List Diagnostic) Document}
    (h : parseFile fs file = .ok o) :
    ∃ entries, parseContent file (fs.readFile file) = .ok (entries, o) := by
  rw [parseFile] at h
  cases hcontent : parseContent file (fs.readFile file) with
  | error fault =>
    rw [hcontent] at h
    cases h
  | ok found =>
    rw [hcontent] at h
    cases h
    exact ⟨found.1, rfl⟩

/-- A document is read from a text. -/
theorem exists_text_of_parseFile {file : String} (h : parseFile fs file = .ok (.ok d)) :
    ∃ text, parse file text = .ok (.ok d) := by
  obtain ⟨entries, hcontent⟩ := exists_entries h
  unfold parseContent at hcontent
  split at hcontent
  · cases hcontent
  next text _ =>
  refine ⟨text, ?_⟩
  rw [parse]
  cases hread : readText file text with
  | error fault =>
    rw [hread] at hcontent
    cases hcontent
  | ok run =>
    rw [hread, Fault.map_ok, Except.ok.injEq, Prod.mk.injEq] at hcontent
    rw [Fault.map_ok, hcontent.2]

/-- Every file is read without a fault, or it is reported why it is not. -/
theorem exists_parseFile (fs : FileSystem) (file : String) : ∃ o, parseFile fs file = .ok o := by
  unfold parseFile parseContent
  split
  · exact ⟨_, rfl⟩
  · next text _ =>
    obtain ⟨run, hread, -⟩ := exists_ends file text
    rw [hread]
    exact ⟨_, rfl⟩

/-! ## Reports -/

/-- Whatever was read is reported on, if its names fit. -/
theorem exists_report {file text : String} (hparse : parse file text = .ok (.ok d))
    (hfit : Guarded.NamesFit d.grammar) (path : String) (firstSets : Bool) :
    ∃ report, Report.text d.grammar.analyze path firstSets = .ok report := by
  obtain ⟨r, hread, houtcome⟩ := exists_readText_of_parse hparse
  have hfresh := Guarded.fresh_of_outcome hread houtcome
  obtain ⟨report, -, hreport⟩ := (Guarded.reportable_of_outcome hread houtcome).report_of_narrow
    ((Guarded.nameWidth_view_le_iff hfresh).mpr hfit) path firstSets
  exact ⟨report, hreport⟩

/-- What is written in front of the symbols, and of the first row of these. -/
def beginning (file : String) : String := Report.render (Report.titleLines file) ++ "//"

/-- A name that fits in no field ends the writing of the report in its first row of symbols. -/
theorem write_of_wideName {file text : String} (hparse : parse file text = .ok (.ok d))
    (hwide : ¬ Guarded.NamesFit d.grammar) (path : String) (firstSets : Bool) :
    Report.write d.grammar.analyze path firstSets = ⟨beginning path, some .wideField⟩ := by
  obtain ⟨r, hread, houtcome⟩ := exists_readText_of_parse hparse
  have hfresh := Guarded.fresh_of_outcome hread houtcome
  rw [← Guarded.nameWidth_view_le_iff hfresh, Nat.not_le] at hwide
  exact (Guarded.reportable_of_outcome hread houtcome).write_of_wide hwide path firstSets

/-! ## Effects -/

/-- The report is to go to a file that cannot be opened. -/
def CannotOpen (fs : FileSystem) (command : CommandLine) (failure : IoFailure) : Prop :=
  ∃ path, command.destination = .file path ∧ fs.target path = .error failure

/-- What a run does that writes a text to the destination of the report. -/
inductive Delivers (fs : FileSystem) (command : CommandLine) (text : String) (ending : Ending)
    (stderr : List String) : Effects → Prop where
  /-- The text is all that is printed, and no file is touched. -/
  | printed (hdestination : command.destination = .stdout) :
      Delivers fs command text ending stderr ⟨ending, text, stderr, fs⟩
  /-- The text is all that its file holds, and no other file is touched. -/
  | written {path : String} {fs' : FileSystem} (hdestination : command.destination = .file path)
      (hstores : fs.Stores path text.toUTF8 fs') :
      Delivers fs command text ending stderr ⟨ending, "", stderr, fs'⟩

/-- A text is delivered with the ending that the run has. -/
theorem Delivers.ending_eq {text : String} {ending : Ending} {stderr : List String}
    {effects : Effects} (h : Delivers fs command text ending stderr effects) :
    effects.ending = ending := by
  cases h <;> rfl

/-- A text that goes to a file is read from there. -/
theorem Delivers.readFile_eq {path text : String} {ending : Ending} {stderr : List String}
    {effects : Effects} (h : Delivers fs command text ending stderr effects)
    (hdestination : command.destination = .file path) :
    effects.files.readFile path = .ok text.toUTF8 := by
  cases h with
  | printed hstdout =>
    rw [hstdout] at hdestination
    cases hdestination
  | written hfile hstores =>
    rw [hfile] at hdestination
    cases hdestination
    exact hstores.readFile_eq

/-- If the grammar cannot be read to its end, that is told. -/
theorem run_of_error (hparse : parseFile fs command.file = .ok (.error errors)) :
    run fs command = ⟨.status 1, "", errors.map Diagnostic.render, fs⟩ := by
  obtain ⟨entries, hcontent⟩ := exists_entries hparse
  rw [run, script, Script.run_read, hcontent]
  -- only the log and the diagnostics are left to be told
  simp

/-- What is left to do with a grammar that was read is to write the report. -/
theorem run_of_document (hparse : parseFile fs command.file = .ok (.ok d)) :
    run fs command = (publish command d).run fs := by
  obtain ⟨entries, hcontent⟩ := exists_entries hparse
  rw [run, script, Script.run_read, hcontent]
  exact Script.run_log _ _ _

/-- If the file of the report cannot be opened, that is told behind what is wrong with the grammar.
-/
theorem run_of_cannotOpen {failure : IoFailure} (hparse : parseFile fs command.file = .ok (.ok d))
    (hcannot : CannotOpen fs command failure) :
    run fs command = ⟨.status 2, "",
      d.errors.map Diagnostic.render ++ [unwritten command.file failure], fs⟩ := by
  obtain ⟨path, hdestination, htarget⟩ := hcannot
  -- the diagnostics are told before the file is opened, and the refusal after that
  rw [run_of_document hparse, publish, Script.run_tell, Script.run_log, hdestination,
    Script.run_deliver_of_error path _ fs htarget]
  simp

/-- What has been written of the report is delivered, with the ending that goes with it. -/
theorem delivers_of_conclude (hparse : parseFile fs command.file = .ok (.ok d))
    (hopen : ∀ failure, ¬ CannotOpen fs command failure) {report : Report.Written}
    (hreport : Report.write d.grammar.analyze command.file command.firstSets = report)
    {ending : Ending} {stderr : List String}
    (hconclude : ∀ fs', (conclude command d.errors report.fault).run fs' =
      ⟨ending, "", stderr, fs'⟩) :
    Delivers fs command report.text ending (d.errors.map Diagnostic.render ++ stderr)
      (run fs command) := by
  rw [run_of_document hparse, publish, hreport, Script.run_tell, Script.run_log]
  -- the text is printed, or a file is opened for it
  cases hdestination : command.destination with
  | stdout =>
    rw [Script.run_deliver_stdout, hconclude, String.append_empty]
    exact .printed hdestination
  | file path =>
    cases htarget : fs.target path with
    -- that the file cannot be opened is excluded
    | error failure => exact absurd ⟨path, hdestination, htarget⟩ (hopen failure)
    | ok place =>
      rw [Script.run_deliver_of_ok path _ fs htarget, hconclude]
      exact .written hdestination (FileSystem.stores_of_target htarget report.text.toUTF8)

/-- If there is a report, all of it is delivered, and the run succeeds. -/
theorem delivers_of_report (hparse : parseFile fs command.file = .ok (.ok d))
    (hopen : ∀ failure, ¬ CannotOpen fs command failure) {report : String}
    (hreport : Report.text d.grammar.analyze command.file command.firstSets = .ok report) :
    Delivers fs command report (.status 0)
      (d.errors.map Diagnostic.render ++ countLines command.file d.errors) (run fs command) := by
  have hwrite : Report.write d.grammar.analyze command.file command.firstSets = ⟨report, none⟩ := by
    rw [Report.write, hreport]
  refine delivers_of_conclude hparse hopen hwrite fun fs' => ?_
  rw [conclude, Script.run_tell, Script.run_finish, List.append_nil]

/-- If a name fits in no field, the report is begun, and the run ends at the fault. -/
theorem delivers_of_wide (hparse : parseFile fs command.file = .ok (.ok d))
    (hopen : ∀ failure, ¬ CannotOpen fs command failure)
    (hwide : ¬ Guarded.NamesFit d.grammar) :
    Delivers fs command (beginning command.file) (.fault .wideField)
      (d.errors.map Diagnostic.render) (run fs command) := by
  obtain ⟨text, htext⟩ := exists_text_of_parseFile hparse
  have hwrite := write_of_wideName htext hwide command.file command.firstSets
  have hdelivers := delivers_of_conclude hparse hopen hwrite fun fs' => Script.run_finish fs' _
  rwa [List.append_nil] at hdelivers

/-- What a run does, for all files and all accepted arguments. If the grammar cannot be read to its
end, the status is 1, the diagnostics are told in order, and nothing else happens. If it can, but
the file of the report cannot be opened, the status is 2 and no file is touched. If that can be
opened too and the names fit, there is a report, with first-sets unless these were switched off; it
goes to the standard output if a dash was given for it, else to its file, and the status is 0. A
name that fits in no field leaves no report: then the run ends at a fault, and all that has come to
the destination is the beginning of a report. -/
theorem run_of_arguments (haccepted : CommandLine.ofArguments arguments = .ok command)
    (fs : FileSystem) :
    ∃ s o, CommandLine.scan arguments = .ok s ∧ s.Gives command ∧
      (command.destination = .stdout ↔ s.output = some "-" ∨ s.outputOption = some "-") ∧
      (command.firstSets = false ↔
        "--no-first-sets" ∈ arguments.takeWhile fun argument => argument ≠ "--") ∧
      parseFile fs command.file = .ok o ∧
      (∀ errors, o = .error errors →
        run fs command = ⟨.status 1, "", errors.map Diagnostic.render, fs⟩) ∧
      (∀ d failure, o = .ok d → CannotOpen fs command failure →
        run fs command = ⟨.status 2, "",
          d.errors.map Diagnostic.render ++ [unwritten command.file failure], fs⟩) ∧
      (∀ d, o = .ok d → (∀ failure, ¬ CannotOpen fs command failure) →
        Guarded.NamesFit d.grammar →
        ∃ report, Report.text d.grammar.analyze command.file command.firstSets = .ok report ∧
          Delivers fs command report (.status 0)
            (d.errors.map Diagnostic.render ++ countLines command.file d.errors)
            (run fs command)) ∧
      ∀ d, o = .ok d → (∀ failure, ¬ CannotOpen fs command failure) →
        ¬ Guarded.NamesFit d.grammar →
        Delivers fs command (beginning command.file) (.fault .wideField)
          (d.errors.map Diagnostic.render) (run fs command) := by
  obtain ⟨s, hscan, hgives⟩ := CommandLine.exists_scan haccepted
  obtain ⟨o, hparse⟩ := exists_parseFile fs command.file
  refine ⟨s, o, hscan, hgives, hgives.destination_eq_stdout_iff,
    CommandLine.firstSets_eq_false_iff haccepted, hparse, ?_, ?_, ?_, ?_⟩
  · -- reading was given up
    rintro errors rfl
    exact run_of_error hparse
  · -- the destination refuses
    rintro d failure rfl hcannot
    exact run_of_cannotOpen hparse hcannot
  · -- all names fit
    rintro d rfl hopen hfit
    obtain ⟨text, htext⟩ := exists_text_of_parseFile hparse
    obtain ⟨report, hreport⟩ := exists_report htext hfit command.file command.firstSets
    exact ⟨report, hreport, delivers_of_report hparse hopen hreport⟩
  · -- a name fits in no field
    rintro d rfl hopen hwide
    exact delivers_of_wide hparse hopen hwide

/-- A grammar with a repeated empty alternative is reported on, without first-sets, in the file that
was named for it, which lies outside the working directory. -/
theorem run_of_arguments_repeated :
    let fs : FileSystem :=
      ⟨[(["reports"], .directory), (["work", "list.y"], .file "%\x7b%\x7d%%s:A||;".toUTF8)],
        ["work"]⟩
    let command : CommandLine := ⟨"list.y", .file "../reports/list.out", .warn, false⟩
    CommandLine.ofArguments ["--no-first-sets", "list.y", "-o", "../reports/list.out"] =
        .ok command ∧
      ∃ report, (run fs command).ending = .status 0 ∧ (run fs command).stdout = "" ∧
        (run fs command).stderr =
          ["list.y:1 => Multiple empty alternatives for `s`", "1 errors in list.y"] ∧
        (run fs command).files.readFile "../reports/list.out" = .ok report := by
  intro fs command
  have haccepted : CommandLine.ofArguments ["--no-first-sets", "list.y", "-o",
      "../reports/list.out"] = .ok command := by decide
  obtain ⟨s, o, -, -, -, -, hparse, -, -, hdocument, -⟩ := run_of_arguments haccepted fs
  obtain ⟨d, hd, hnames, herrors⟩ : ∃ d, parse "list.y" "%\x7b%\x7d%%s:A||;" = .ok (.ok d) ∧
      d.grammar.table.names = ["s", "A"] ∧
      d.errors = [⟨⟨"list.y", 1⟩, .repeatedEmptyAlternative "s"⟩] := ⟨_, rfl, rfl, rfl⟩
  have ho : o = .ok d := by
    have hfile (content : ByteArray) :
        FileSystem.readFile ⟨[(["reports"], .directory), (["work", "list.y"], .file content)],
          ["work"]⟩ "list.y" = .ok content := rfl
    have htext : parseFile fs "list.y" = parse "list.y" "%\x7b%\x7d%%s:A||;" :=
      parseFile_of_text (hfile _)
    exact Except.ok.inj (hparse.symm.trans (htext.trans hd))
  have hfit : Guarded.NamesFit d.grammar := by
    rw [Guarded.NamesFit, hnames]
    decide
  have hopen (failure : IoFailure) : ¬ CannotOpen fs command failure := by
    rintro ⟨path, ⟨⟩, htarget⟩
    cases htarget
  obtain ⟨report, -, hdelivers⟩ := hdocument d ho hopen hfit
  have hlines : [⟨⟨"list.y", 1⟩, .repeatedEmptyAlternative "s"⟩].map Diagnostic.render ++
      countLines "list.y" [⟨⟨"list.y", 1⟩, .repeatedEmptyAlternative "s"⟩] =
        ["list.y:1 => Multiple empty alternatives for `s`", "1 errors in list.y"] := by decide
  rw [herrors] at hdelivers
  refine ⟨haccepted, report.toUTF8, ?_⟩
  -- the report was not asked for on the standard output, so it went to its file
  generalize run fs command = effects at hdelivers
  cases hdelivers with
  | printed hdestination => cases hdestination
  | written hdestination hstores =>
    cases hdestination
    exact ⟨rfl, rfl, hlines, hstores.readFile_eq⟩

/-- The shortest file for a name that fits in no field. -/
theorem delivers_of_wideName {n : String} (hn : Name.isNonterminal n = true)
    (hwide : Report.fieldLimit < n.toList.length)
    (hopen : ∀ failure, ¬ CannotOpen fs command failure)
    (hfile : fs.readFile command.file = .ok ("%\x7b%\x7d%%" ++ n ++ ":;").toUTF8) :
    ∃ d, parseFile fs command.file = .ok (.ok d) ∧
      Delivers fs command (beginning command.file) (.fault .wideField)
        (d.errors.map Diagnostic.render) (run fs command) := by
  obtain ⟨r, d, hread, hd, -, hnotfit⟩ :=
    Guarded.exists_document_of_wide hn hwide command.file (Guarded.single_renders n)
  have hparse : parseFile fs command.file = .ok (.ok d) := by
    rw [parseFile_of_text hfile, parse, hread, Except.map, hd]
  exact ⟨d, hparse, delivers_of_wide hparse hopen hnotfit⟩

/-- A file of seven tokens that is read to its end, and whose report can be stored. A run on it ends
with no status that the program gives, and the file of the report is left with two lines. -/
theorem run_refused_of_wideName :
    let n := String.ofList (List.replicate 65536 'a')
    let fs : FileSystem :=
      ⟨[(["work", "wide.y"], .file ("%\x7b%\x7d%%" ++ n ++ ":;").toUTF8)], ["work"]⟩
    let command : CommandLine := ⟨"wide.y", .file "wide.out", .warn, false⟩
    ∃ d, CommandLine.ofArguments ["--no-first-sets", "wide.y"] = .ok command ∧
      parseFile fs command.file = .ok (.ok d) ∧ (∀ failure, ¬ CannotOpen fs command failure) ∧
      (run fs command).ending = .fault .wideField ∧
      (run fs command).files.readFile "wide.out" = .ok (beginning "wide.y").toUTF8 := by
  intro n fs command
  have hchars : n.toList = List.replicate 65536 'a' := String.toList_ofList
  have hn : Name.isNonterminal n = true := by
    rw [Name.isNonterminal, hchars, List.head?_replicate, List.all_replicate]
    decide
  have hwide : Report.fieldLimit < n.toList.length := by
    rw [hchars, List.length_replicate]
    decide
  have haccepted : CommandLine.ofArguments ["--no-first-sets", "wide.y"] = .ok command := by
    decide
  have hfile (content : ByteArray) :
      FileSystem.readFile ⟨[(["work", "wide.y"], .file content)], ["work"]⟩ "wide.y" =
        .ok content := rfl
  have htext : fs.readFile command.file = .ok ("%\x7b%\x7d%%" ++ n ++ ":;").toUTF8 := hfile _
  have hopen (failure : IoFailure) : ¬ CannotOpen fs command failure := by
    rintro ⟨path, ⟨⟩, htarget⟩
    cases htarget
  obtain ⟨d, hparse, hdelivers⟩ := delivers_of_wideName hn hwide hopen htext
  exact ⟨d, haccepted, hparse, hopen, hdelivers.ending_eq, hdelivers.readFile_eq rfl⟩

end Program

end YaccGrammar
