import SmallC.CommandLine
import SmallC.Proofs.CommandLine.Files
import SmallC.Proofs.Preprocess.Conditional

/-!
# The inputs of a command

A command compiles its inputs with one preprocessor, which keeps what the input before has
left behind. Nothing of that can be seen: what is printed for an input is what a command with
that input alone prints.
-/

namespace SmallC.CommandLine

/-! ## Options before inputs -/

namespace Draft

/-- Reading goes on behind arguments that leave no option waiting for its value. -/
theorem read_append {options : List String} (hoptions : ∀ text ∈ options, text ≠ "--") {p d : Draft}
    {waiting : Option Valued} (hread : p.read waiting options = .ok d) (rest : List String) :
    p.read waiting (options ++ rest) = d.read none rest := by
  induction options generalizing p waiting with
  | nil =>
    cases waiting with
    | none =>
      cases hread
      rfl
    | some v => cases hread
  | cons text options ih =>
    obtain ⟨htext, hoptions⟩ := List.forall_mem_cons.mp hoptions
    rw [List.cons_append]
    cases waiting with
    | none =>
      rw [read] at hread ⊢
      simp only [htext, if_false] at hread ⊢
      split at hread
      · cases hread
      · exact ih hoptions hread
    | some v =>
      rw [read] at hread ⊢
      split at hread
      · cases hread
      · rename_i htext
        rw [if_neg htext]
        split at hread
        · cases hread
        · exact ih hoptions hread

/-- Arguments that are all inputs are gathered in their order. -/
theorem foldlM_input (d : Draft) {inputs : List String} (hinputs : ∀ text ∈ inputs, text ≠ "") :
    inputs.foldlM input d = .ok { d with
      options := { d.options with inputs := d.options.inputs ++ inputs.map Path.mk } } := by
  induction inputs generalizing d with
  | nil =>
    rw [List.foldlM_nil, List.map_nil, List.append_nil]
    rfl
  | cons text inputs ih =>
    obtain ⟨htext, hinputs⟩ := List.forall_mem_cons.mp hinputs
    rw [List.foldlM_cons, input, if_neg htext]
    refine (ih _ hinputs).trans ?_
    rw [List.append_assoc]
    rfl

end Draft

/-- Behind a double dash come the inputs. -/
theorem Request.ofArguments_append {options inputs : List String} {d : Draft}
    (hread : Draft.start.read none options = .ok d) (hoptions : ∀ text ∈ options, text ≠ "--")
    (hinputs : ∀ text ∈ inputs, text ≠ "") (hne : inputs ≠ []) :
    Request.ofArguments (options ++ "--" :: inputs) = .compile
      { d.options with inputs := d.options.inputs ++ inputs.map Path.mk } := by
  rw [ofArguments, Draft.read_append hoptions hread, Draft.read]
  simp only [if_true]
  rw [Draft.foldlM_input d hinputs]
  simp [hne]

/-! ## One report -/

variable {o : Options} {fs : FileSystem} {p : Preprocessor} {input : Path}

/-- The report on an input by itself. -/
def soleReport (o : Options) (fs : FileSystem) (input : Path) : Report :=
  if o.preprocessOnly then
    let p := preprocess o.config fs input
    match p.result with
    | .ok text => ⟨text.text, "", true, none, p.log⟩
    | .error d => ⟨"", asLine (d.messageIn p.files), false, none, p.log⟩
  else
    let c := compile o.config fs input
    match c.result with
    | .ok compiled => reportOn o input compiled c.log
    | .error (.spelling failure) =>
      ⟨"", asLine (input.text ++ ":") ++ asLine failure.message, false, none, c.log⟩
    | .error e => ⟨"", asLine (e.messageIn c.files), false, none, c.log⟩

/-- The report on an input is what it is by itself, whatever the preprocessor was run on
before. -/
theorem report_eq (hp : p.config = o.config) (fs : FileSystem) (input : Path) :
    report o fs p input = ((p.run fs input).1, soleReport o fs input) := by
  rw [report, soleReport]
  split
  · have houtcome := p.outcome_run fs input
    rw [← hp, ← houtcome]
    rcases p.run fs input with ⟨p', d | text⟩ <;> rfl
  · rw [Preprocessor.compile_eq, hp]
    rcases compile o.config fs input with ⟨(_ | _ | _) | _, files, log⟩ <;> rfl

/-- A file is written only into a directory that was asked for. -/
theorem document_soleReport (hdirectory : o.output.directory = none) (fs : FileSystem)
    (input : Path) : (soleReport o fs input).document = none := by
  unfold soleReport
  split
  · dsimp only
    split <;> rfl
  · dsimp only
    split
    · rw [reportOn, hdirectory]
    · rfl
    · rfl

/-- What else is to be compiled makes no difference to a report. -/
theorem soleReport_inputs (o : Options) (inputs : List Path) :
    soleReport { o with inputs } = soleReport o := rfl

/-! ## All reports -/

/-- What a report adds to a result, if it writes no file. -/
theorem add_of_document {report : Report} (hdocument : report.document = none) (r : Result) :
    r.add report = .ok ⟨if report.succeeded then r.status else 1, r.output ++ report.output,
      r.errors ++ report.errors, r.files⟩ := by
  rw [Result.add, hdocument]

/-- Without a directory for the trees, the reports on the inputs come one after the other. -/
theorem addAll_eq (hdirectory : o.output.directory = none) (hp : p.config = o.config)
    (r : Result) (inputs : List Path) :
    let reports := inputs.map (soleReport o r.files.toFileSystem)
    r.addAll o p inputs = ⟨if reports.all (·.succeeded) then r.status else 1,
      r.output ++ String.join (reports.map (·.output)),
      r.errors ++ String.join (reports.map (·.errors)), r.files⟩ := by
  intro reports
  induction inputs generalizing p r with
  | nil => simp [reports, Result.addAll]
  | cons input inputs ih =>
    have hnext : (p.run r.files.toFileSystem input).1.config = o.config := by
      rw [Preprocessor.config_run, hp]
    have hdocument := document_soleReport hdirectory r.files.toFileSystem input
    rw [Result.addAll, report_eq hp]
    dsimp only
    rw [add_of_document hdocument]
    dsimp only
    rw [ih hnext]
    cases hsucceeded : (soleReport o r.files.toFileSystem input).succeeded <;>
      simp [reports, hsucceeded, String.append_assoc]

/-- What a command without a directory for the trees leaves behind. -/
theorem run_eq {arguments : List String} (hcommand : Request.ofArguments arguments = .compile o)
    (hdirectory : o.output.directory = none) (files : FileTree) :
    let reports := o.inputs.map (soleReport o files.toFileSystem)
    run arguments files = ⟨if reports.all (·.succeeded) then 0 else 1,
      String.join (reports.map (·.output)), String.join (reports.map (·.errors)), files⟩ := by
  intro reports
  rw [run, hcommand]
  dsimp only
  rw [compileAll, hdirectory]
  dsimp only
  rw [addAll_eq hdirectory rfl]
  simp [reports]

/-- What a command with one input leaves behind, without a directory for the trees. -/
theorem run_eq_of_single {arguments : List String}
    (hcommand : Request.ofArguments arguments = .compile { o with inputs := [input] })
    (hdirectory : o.output.directory = none) (files : FileTree) :
    run arguments files =
      ⟨if (soleReport o files.toFileSystem input).succeeded then 0 else 1,
        (soleReport o files.toFileSystem input).output,
        (soleReport o files.toFileSystem input).errors, files⟩ := by
  have hrun := run_eq hcommand hdirectory files
  simp only [soleReport_inputs] at hrun
  simpa using hrun

/-- Inputs of one command do not influence each other. Without a directory for the trees, a
command prints what commands with one input each print, one after the other, and it fails if
one of these does; and however a preprocessor was left behind, each of its next runs gives
what the run of a new one gives. -/
theorem run_eq_join_alone {arguments : List String} {o : Options}
    (hcommand : Request.ofArguments arguments = .compile o)
    (hdirectory : o.output.directory = none) {single : Path → List String}
    (hsingle : ∀ input ∈ o.inputs,
      Request.ofArguments (single input) = .compile { o with inputs := [input] })
    (files : FileTree) :
    let alone := o.inputs.map fun input => run (single input) files
    (run arguments files).output = String.join (alone.map (·.output)) ∧
      (run arguments files).errors = String.join (alone.map (·.errors)) ∧
      ((run arguments files).status = 0 ↔ ∀ r ∈ alone, r.status = 0) ∧
      (run arguments files).files = files ∧
      ∀ (p : Preprocessor) (runs : List (FileSystem × Path)), p.outcomes runs =
        runs.map fun r => Preprocessor.outcome ((Preprocessor.new p.config).run r.1 r.2) := by
  intro alone
  have hall := run_eq hcommand hdirectory files
  have hruns : alone = o.inputs.map _ := List.map_congr_left fun input hinput =>
    run_eq_of_single (hsingle input hinput) hdirectory files
  rw [hall, hruns]
  refine ⟨by simp [Function.comp_def], by simp [Function.comp_def], ?_, rfl,
    fun p runs => p.outcomes_eq runs⟩
  simp [List.all_eq_true]

/-- A file that leaves a macro defined and a group open, and one that asks for the macro. -/
def unclosedAndIfdef : FileTree :=
  ⟨["current"], [(["current"], .directory),
    (["current", "a.c"], .file "#define X\n#if 1".toUTF8),
    (["current", "b.c"], .file "#ifdef X\ny\n#endif".toUTF8)]⟩

/-- The options with which only the texts after inclusion are printed. -/
def expanding (inputs : List Path) : Options :=
  ⟨inputs, [], [], ⟨none, .executable, []⟩, true, false, false, false⟩

/-- The command line by which some files are expanded one after the other. -/
theorem ofArguments_expanding {inputs : List String} (hinputs : ∀ text ∈ inputs, text ≠ "")
    (hne : inputs ≠ []) :
    Request.ofArguments ("-E" :: "--" :: inputs) = .compile (expanding (inputs.map Path.mk)) := by
  have hread : Draft.start.read none ["-E"] = .ok ⟨expanding [], none⟩ := rfl
  exact Request.ofArguments_append hread (by decide) hinputs hne

/-- The file that leaves a group open fails. -/
theorem succeeded_unclosed :
    (soleReport (expanding []) unclosedAndIfdef.toFileSystem ⟨"a.c"⟩).succeeded = false := by
  have hstores : unclosedAndIfdef.Stores ⟨"a.c"⟩ ["current", "a.c"] "#define X\n#if 1".toUTF8 :=
    ⟨rfl, rfl⟩
  have hread : unclosedAndIfdef.toFileSystem.read ⟨"a.c"⟩ = .ok "#define X\n#if 1" := hstores.read
  have hlines : Line.ofTexts 0 0 (lineTexts "#define X\n#if 1") =
      [⟨"#define X", 0, 1, 0⟩, ⟨"#if 1", 0, 2, 0⟩] := by decide +kernel
  have hfree : Preprocess.IncludeFree (Line.ofTexts 0 0 (lineTexts "#define X\n#if 1")) := by
    unfold Preprocess.IncludeFree
    decide +kernel
  have hplain : Line.role ⟨"#define X", 0, 1, 0⟩ = .plain := by decide +kernel
  have hopener : Line.role ⟨"#if 1", 0, 2, 0⟩ = .opener := by decide +kernel
  have hfails : ∀ text, (preprocess (expanding []).config unclosedAndIfdef.toFileSystem
      ⟨"a.c"⟩).result = .ok text → False := by
    intro text hresult
    have hnested := @Preprocess.nested_of_preprocess (expanding []).config
      unclosedAndIfdef.toFileSystem ⟨"a.c"⟩ "#define X\n#if 1" text hread hfree hresult
    rw [hlines] at hnested
    simp only [Nested, hplain, hopener, reduceCtorEq] at hnested
  have honly : (expanding []).preprocessOnly := rfl
  rw [soleReport, if_pos honly]
  cases hresult : (preprocess (expanding []).config unclosedAndIfdef.toFileSystem ⟨"a.c"⟩).result with
  | error d => simp only [hresult]
  | ok text => exact absurd hresult (hfails text)

/-- The file that asks for a macro of the file before it does not find it. -/
theorem output_ifdef :
    (soleReport (expanding []) unclosedAndIfdef.toFileSystem ⟨"b.c"⟩).output = "\n\n\n" := by
  have hstores : unclosedAndIfdef.Stores ⟨"b.c"⟩ ["current", "b.c"]
      "#ifdef X\ny\n#endif".toUTF8 := ⟨rfl, rfl⟩
  have hread : unclosedAndIfdef.toFileSystem.read ⟨"b.c"⟩ = .ok "#ifdef X\ny\n#endif" :=
    hstores.read
  have hfree : Preprocess.IncludeFree (Line.ofTexts 0 0 (lineTexts "#ifdef X\ny\n#endif")) := by
    unfold Preprocess.IncludeFree
    decide +kernel
  have hmark := (Preprocess.run_eq_mark (.new (expanding []).config) _ _ hread hfree).2
    (.group ⟨"#ifdef X", 0, 1, 0⟩ (.line ⟨"y", 0, 2, 0⟩ .empty) (.endif ⟨"#endif", 0, 3, 0⟩) .empty)
    (by simp only [Blocks.Proper, Branches.Proper]; decide +kernel) (by decide +kernel)
  have hresult : (preprocess (expanding []).config unclosedAndIfdef.toFileSystem ⟨"b.c"⟩).result =
      .ok ⟨#[⟨"", 0, 1, 0⟩, ⟨"", 0, 2, 0⟩, ⟨"", 0, 3, 0⟩], ⟨#[⟨"b.c"⟩]⟩⟩ := by
    rw [Preprocessor.preprocess_eq_outcome]
    with_unfolding_all exact hmark.2.2
  have honly : (expanding []).preprocessOnly := rfl
  rw [soleReport, if_pos honly]
  simp only [hresult]
  decide +kernel

/-- The second file is preprocessed as if the macro of the first one had never been. -/
theorem run_unclosed_before_ifdef :
    let both := run ["-E", "--", "a.c", "b.c"] unclosedAndIfdef
    let first := run ["-E", "--", "a.c"] unclosedAndIfdef
    let second := run ["-E", "--", "b.c"] unclosedAndIfdef
    both.output = first.output ++ second.output ∧ both.errors = first.errors ++ second.errors ∧
      (both.status = 0 ↔ first.status = 0 ∧ second.status = 0) ∧
      first.status = 1 ∧ second.output = "\n\n\n" := by
  intro both first second
  have hfirst : Request.ofArguments ["-E", "--", "a.c"] = .compile (expanding [⟨"a.c"⟩]) :=
    ofArguments_expanding (by decide) (List.cons_ne_nil _ [])
  have hsecond : Request.ofArguments ["-E", "--", "b.c"] = .compile (expanding [⟨"b.c"⟩]) :=
    ofArguments_expanding (by decide) (List.cons_ne_nil _ [])
  have hboth : Request.ofArguments ["-E", "--", "a.c", "b.c"] =
      .compile (expanding [⟨"a.c"⟩, ⟨"b.c"⟩]) :=
    ofArguments_expanding (by decide) (List.cons_ne_nil _ ["b.c"])
  have hsingle : ∀ input ∈ (expanding [⟨"a.c"⟩, ⟨"b.c"⟩]).inputs,
      Request.ofArguments ["-E", "--", input.text] = .compile (expanding [input]) :=
    List.forall_mem_cons.mpr ⟨hfirst, List.forall_mem_singleton.mpr hsecond⟩
  obtain ⟨houtput, herrors, hstatus, -⟩ := run_eq_join_alone hboth rfl hsingle unclosedAndIfdef
  have halone : ((expanding [⟨"a.c"⟩, ⟨"b.c"⟩]).inputs.map fun input =>
      run ["-E", "--", input.text] unclosedAndIfdef) = [first, second] := rfl
  rw [halone] at houtput herrors hstatus
  have hfirstRun : first = _ := run_eq_of_single (o := expanding []) hfirst rfl unclosedAndIfdef
  have hsecondRun : second = _ := run_eq_of_single (o := expanding []) hsecond rfl unclosedAndIfdef
  refine ⟨by simpa using houtput, by simpa using herrors, by simpa using hstatus, ?_, ?_⟩
  · rw [hfirstRun, succeeded_unclosed]
    rfl
  · rw [hsecondRun, output_ifdef]

end SmallC.CommandLine
