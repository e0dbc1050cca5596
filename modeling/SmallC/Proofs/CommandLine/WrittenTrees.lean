import SmallC.Proofs.CommandLine.Files
import SmallC.Proofs.CommandLine.Inputs
import SmallC.Proofs.Parse.Initializers
import SmallC.Proofs.Preprocess.FixedPoints

/-!
# The trees that a command writes

With a directory for the trees, a command writes the tree of each input that it can parse to a
file there, which has the name of the input without its directories and its extension. So the
trees of two inputs may go to one file: the tree of an input is what is found at the end in the
file whose path was printed for it, unless the tree of a later input went there too.
-/

namespace SmallC.CommandLine

open Compilation (treePath)

/-- The name of the file for the tree of an input. -/
def treeName (input : Path) : String := input.stem?.getD "out" ++ ".tree.json"

/-- The inputs of a command take their turns, and no write fails. For each input there is what
its compilation gives, if it gets to the parser; then its tree is written. -/
inductive Writes (o : Options) (directory : Path) :
    FileTree → List (Path × Option Compilation) → FileTree → Prop
  | done (files : FileTree) : Writes o directory files [] files
  | failed {files files' : FileTree} {input : Path} {e : CompilationError}
      {turns : List (Path × Option Compilation)} :
    (compile o.config files.toFileSystem input).result = .error e →
    Writes o directory files turns files' → Writes o directory files ((input, none) :: turns) files'
  | written {files files₁ files' : FileTree} {input : Path} {c : Compilation}
      {turns : List (Path × Option Compilation)} :
    (compile o.config files.toFileSystem input).result = .ok c →
    files.write (treePath directory input) c.document.toUTF8 = .ok files₁ →
    Writes o directory files₁ turns files' →
    Writes o directory files ((input, some c) :: turns) files'

/-- A command with a directory for the trees comes to its end, and no write fails. -/
structure Finishes (arguments : List String) (o : Options) (directory : Path)
    (files files' : FileTree) (turns : List (Path × Option Compilation)) : Prop where
  request : Request.ofArguments arguments = .compile o
  output : o.output.directory = some directory
  parses : o.preprocessOnly = false
  inputs : turns.map (·.1) = o.inputs
  writes : ∃ files₀, files.makeDirectories directory = .ok files₀ ∧
    Writes o directory files₀ turns files'

/-- What is printed in a turn: the tokens if they are asked for, and the path of the tree. -/
def printed (o : Options) (directory : Path) : Path × Option Compilation → String
  | (_, none) => ""
  | (input, some c) =>
    (if o.tokens then String.join (c.tokens.map fun t => asLine t.text) else "") ++
      asLine (treePath directory input).text

variable {arguments : List String} {o : Options} {directory input : Path} {p : Preprocessor}
  {files files' : FileTree} {c : Compilation}
  {turns before after : List (Path × Option Compilation)}

/-! ## The names of the files -/

/-- The name of a tree file is never one of those that mean a directory. -/
theorem isFileName_treeName (input : Path) : FileTree.IsFileName (treeName input) := by
  have hextension : ".tree.json".toList.length = 10 := by decide
  refine FileTree.isFileName_of_length ?_ ?_
  · rw [treeName, String.toList_append, List.mem_append, not_or]
    refine ⟨?_, by decide⟩
    cases hstem : input.stem? with
    | none => decide
    | some stem => exact Path.not_mem_stem hstem
  · rw [treeName, String.toList_append, List.length_append]
    omega

/-- Trees that go to different paths go to different files. -/
theorem locate_treePath_ne {other : Path} {names : List String}
    (hne : treePath directory other ≠ treePath directory input)
    (hlocate : files.locate (treePath directory input) = .ok names) :
    files'.locate (treePath directory other) ≠ .ok names := by
  intro hother
  have hname : names.getLast? = some (treeName input) :=
    FileTree.getLast?_of_locate_join (isFileName_treeName input) hlocate
  have hsame : names.getLast? = some (treeName other) :=
    FileTree.getLast?_of_locate_join (isFileName_treeName other) hother
  have hnames : treeName other = treeName input := Option.some.inj (hsame.symm.trans hname)
  have hpath : directory.join ⟨treeName other⟩ = directory.join ⟨treeName input⟩ := by rw [hnames]
  exact hne hpath

/-! ## The turns of a command -/

/-- A file stays as it is in turns that write to other paths. -/
theorem Writes.stores {names : List String} {content : ByteArray}
    (h : Writes o directory files turns files')
    (hother : ∀ turn ∈ turns, turn.2.isSome →
      treePath directory turn.1 ≠ treePath directory input)
    (hstores : files.Stores (treePath directory input) names content) :
    files'.Stores (treePath directory input) names content := by
  induction h with
  | done files => exact hstores
  | failed _ _ ih => exact ih (List.forall_mem_cons.mp hother).2 hstores
  | written _ hwrite _ ih =>
    obtain ⟨hne, hother⟩ := List.forall_mem_cons.mp hother
    exact ih hother (hstores.write hwrite (locate_treePath_ne (hne rfl) hstores.locate))

/-- The tree of an input is found in its file, if no later tree goes there. -/
theorem Writes.read (h : Writes o directory files (before ++ (input, some c) :: after) files')
    (hlater : ∀ later ∈ after, later.2.isSome →
      treePath directory later.1 ≠ treePath directory input) :
    files'.read (treePath directory input) = .ok c.document := by
  induction before generalizing files with
  | nil =>
    cases h with
    | written _ hwrite hafter =>
      obtain ⟨names, hstores⟩ := FileTree.exists_stores_of_write hwrite
      exact (hafter.stores hlater hstores).read
  | cons turn before ih =>
    cases h with
    | failed _ hrest => exact ih hrest
    | written _ _ hrest => exact ih hrest

/-- An input that does not get to the parser prints nothing and writes nothing. -/
theorem exists_add_of_failed {e : CompilationError} (hparses : o.preprocessOnly = false)
    {r : Result} (hfailed : (compile o.config r.files.toFileSystem input).result = .error e) :
    ∃ r₁, r.add (soleReport o r.files.toFileSystem input) = .ok r₁ ∧ r₁.files = r.files ∧
      r₁.output = r.output ++ printed o directory (input, none) := by
  have hreport : (soleReport o r.files.toFileSystem input).output = "" ∧
      (soleReport o r.files.toFileSystem input).document = none := by
    rw [soleReport, if_neg (by simp [hparses])]
    cases e <;> simp only [hfailed, and_self]
  obtain ⟨houtput, hdocument⟩ := hreport
  refine ⟨_, add_of_document hdocument r, rfl, ?_⟩
  rw [houtput]
  rfl

/-- The tree of an input is written, and its path is printed. -/
theorem exists_add_of_compiled (houtput : o.output.directory = some directory)
    (hparses : o.preprocessOnly = false) {r : Result} {files₁ : FileTree}
    (hcompiled : (compile o.config r.files.toFileSystem input).result = .ok c)
    (hwrite : r.files.write (treePath directory input) c.document.toUTF8 = .ok files₁) :
    ∃ r₁, r.add (soleReport o r.files.toFileSystem input) = .ok r₁ ∧ r₁.files = files₁ ∧
      r₁.output = r.output ++ printed o directory (input, some c) := by
  rw [soleReport, if_neg (by simp [hparses])]
  simp only [hcompiled, reportOn, houtput, Result.add, hwrite]
  refine ⟨_, rfl, rfl, ?_⟩
  rw [printed, String.append_assoc]

/-- What the turns of a command print and leave behind. -/
theorem Writes.addAll (h : Writes o directory files turns files')
    (houtput : o.output.directory = some directory) (hparses : o.preprocessOnly = false)
    (hp : p.config = o.config) {r : Result} (hr : r.files = files) :
    (r.addAll o p (turns.map (·.1))).files = files' ∧
      (r.addAll o p (turns.map (·.1))).output =
        r.output ++ String.join (turns.map (printed o directory)) := by
  -- after the first turn the others go on from what it leaves behind
  have hturn {r r₁ : Result} {p : Preprocessor} (hp : p.config = o.config) (input : Path)
      (hadd : r.add (soleReport o r.files.toFileSystem input) = .ok r₁) :
      ∃ p₁ : Preprocessor, p₁.config = o.config ∧
        ∀ inputs, r.addAll o p (input :: inputs) = r₁.addAll o p₁ inputs := by
    refine ⟨(p.run r.files.toFileSystem input).1, by rw [Preprocessor.config_run, hp],
      fun inputs => ?_⟩
    rw [Result.addAll, report_eq hp]
    simp only [hadd]
  induction h generalizing p r with
  | done files => simp [Result.addAll, hr]
  | @failed files files' input e turns hfailed _ ih =>
    subst hr
    obtain ⟨r₁, hadd, hfiles₁, hprinted⟩ := exists_add_of_failed hparses hfailed
    obtain ⟨p₁, hp₁, hrest⟩ := hturn hp input hadd
    obtain ⟨hfiles, hall⟩ := ih hp₁ hfiles₁
    rw [List.map_cons, hrest, hall, hprinted, List.map_cons, String.join_cons,
      String.append_assoc]
    exact ⟨hfiles, rfl⟩
  | @written files files₁ files' input c turns hcompiled hwrite _ ih =>
    subst hr
    obtain ⟨r₁, hadd, hfiles₁, hprinted⟩ := exists_add_of_compiled houtput hparses hcompiled hwrite
    obtain ⟨p₁, hp₁, hrest⟩ := hturn hp input hadd
    obtain ⟨hfiles, hall⟩ := ih hp₁ hfiles₁
    rw [List.map_cons, hrest, hall, hprinted, List.map_cons, String.join_cons,
      String.append_assoc]
    exact ⟨hfiles, rfl⟩

/-- What a command that comes to its end prints and leaves behind. -/
theorem Finishes.run (h : Finishes arguments o directory files files' turns) :
    (run arguments files).files = files' ∧
      (run arguments files).output = String.join (turns.map (printed o directory)) := by
  obtain ⟨files₀, hdirectories, hwrites⟩ := h.writes
  let start : Result := ⟨0, "", "", files₀⟩
  have hrun : CommandLine.run arguments files =
      start.addAll o (.new o.config) (turns.map (·.1)) := by
    rw [CommandLine.run, h.request, h.inputs]
    simp only [compileAll, h.output, hdirectories]
    rfl
  have hstart : start.files = files₀ := rfl
  obtain ⟨hfiles, hprinted⟩ := hwrites.addAll h.output h.parses (p := .new o.config) rfl hstart
  rw [hrun]
  exact ⟨hfiles, hprinted.trans String.empty_append⟩

/-- With a directory for the trees and no write that fails, the path of the tree is printed for
each input that gets to the parser; and in the file at that path is the tree of this input, if
the path was not printed for a later input too. -/
theorem run_read_treePath (h : Finishes arguments o directory files files' turns) :
    (run arguments files).output = String.join (turns.map (printed o directory)) ∧
      ∀ before input c after, turns = before ++ (input, some c) :: after →
        (∀ later ∈ after, later.2.isSome →
          treePath directory later.1 ≠ treePath directory input) →
        (run arguments files).files.read (treePath directory input) = .ok c.document := by
  obtain ⟨hfiles, hprinted⟩ := h.run
  refine ⟨hprinted, ?_⟩
  rintro before input c after rfl hlater
  obtain ⟨files₀, -, hwrites⟩ := h.writes
  rw [hfiles]
  exact hwrites.read hlater

/-! ## A program in a file -/

/-- A file whose text is that of a program is compiled, and its tree is the one that the program
describes. -/
theorem exists_compile_of_spelled {config : PreprocessConfig} {fs : FileSystem} {path : Path}
    {text : LogicalText} {tokens : List Token} {p : Program}
    (htext : (preprocess config fs path).result = .ok text)
    (hscan : (Scan.ofText text.text).result text.text = .ok tokens)
    (hspelled : p.SpelledBy tokens) (hlawful : p.Lawful) :
    ∃ c, (compile config fs path).result = .ok c ∧ c.parse.tree.outline = p.outline := by
  obtain ⟨-, houtline⟩ := Parse.ofTokens_of_lawful hspelled hlawful
  have hcompiled : (compile config fs path).result = .ok ⟨text, tokens, .ofTokens tokens⟩ := by
    simp only [compile, htext, Compilation.ofLines, hscan]
  exact ⟨_, hcompiled, houtline⟩

/-! ## Two inputs of one name -/

/-- Two files of one name in two directories, and a directory for trees. -/
def twins : FileTree :=
  ⟨["current"], [(["current"], .directory), (["current", "x"], .directory),
    (["current", "y"], .directory), (["current", "out"], .directory),
    (["current", "x", "a.c"], .file "int b;".toUTF8), (["current", "y", "a.c"], .file "".toUTF8)]⟩

/-- The options with which the trees go to the directory. -/
def intoOut (inputs : List Path) : Options :=
  ⟨inputs, [], [], ⟨some ⟨"out"⟩, .executable, []⟩, false, false, false, false⟩

/-- The command line that writes the trees of two inputs with the same stem into one directory. -/
theorem request_twins : Request.ofArguments ["-o", "out", "--", "x/a.c", "y/a.c"] =
    .compile (intoOut [⟨"x/a.c"⟩, ⟨"y/a.c"⟩]) := by
  have hread : Draft.start.read none ["-o", "out"] = .ok ⟨intoOut [], none⟩ := rfl
  exact Request.ofArguments_append hread (by decide) (by decide) (List.cons_ne_nil _ ["y/a.c"])

/-- The outline of a file with one variable. -/
def variableOutline : Outline :=
  .node "Unit" [] [.node "Body" [] [.node "Variable0"
    [("Ptr", .flag false), ("Type", .type .int)] []]]

/-- The files after some content was written in place of the tree of the twins. -/
def twinsWith (content : ByteArray) : FileTree :=
  twins.set ["current", "out", "a.tree.json"] (.file content)

/-- Where the tree of the first input is written. -/
theorem treePath_firstTwin : treePath ⟨"out"⟩ ⟨"x/a.c"⟩ = ⟨"out/a.tree.json"⟩ := by
  decide +kernel

/-- Where the tree of the second input is written: over that of the first. -/
theorem treePath_secondTwin : treePath ⟨"out"⟩ ⟨"y/a.c"⟩ = ⟨"out/a.tree.json"⟩ := by
  decide +kernel

/-- The two inputs do not have the same tree. -/
theorem document_twins :
    variableOutline.document ≠ (Outline.node "Unit" [] [.node "Body" [] []]).document := by
  decide +kernel

/-- The directory is there already. -/
theorem makeDirectories_twins : twins.makeDirectories ⟨"out"⟩ = .ok twins := rfl

/-- The place of the file that both trees are written to. -/
theorem locate_twins :
    twins.locate ⟨"out/a.tree.json"⟩ = .ok ["current", "out", "a.tree.json"] := rfl

/-- There is no file at that place before. -/
theorem entry?_twins : twins.entry? ["current", "out", "a.tree.json"] = none := rfl

/-- Writing the first tree makes the file. -/
theorem write_firstTwin (content : ByteArray) :
    twins.write (treePath ⟨"out"⟩ ⟨"x/a.c"⟩) content = .ok (twinsWith content) := by
  rw [treePath_firstTwin, FileTree.write, locate_twins]
  simp only [entry?_twins]
  rfl

/-- The first of the inputs declares a variable. -/
theorem compile_firstTwin : ∃ c,
    (compile (intoOut []).config twins.toFileSystem ⟨"x/a.c"⟩).result = .ok c ∧
      c.parse.tree.outline = variableOutline := by
  have hstores : twins.Stores ⟨"x/a.c"⟩ ["current", "x", "a.c"] "int b;".toUTF8 := ⟨rfl, rfl⟩
  have hread : twins.toFileSystem.read ⟨"x/a.c"⟩ = .ok "int b;" := hstores.read
  have hlines : Line.ofTexts 0 0 (lineTexts "int b;") = [⟨"int b;", 0, 1, 0⟩] := by decide +kernel
  have hkept : ∀ l ∈ Line.ofTexts 0 0 (lineTexts "int b;"), l.isKept = true := by
    rw [hlines]
    decide +kernel
  obtain ⟨hresult, -⟩ := Preprocess.preprocess_of_isKept (intoOut []).config hread hkept
  rw [hlines] at hresult
  have htext : LogicalText.text ⟨#[⟨"int b;", 0, 1, 0⟩], ⟨#[⟨"x/a.c"⟩]⟩⟩ = "int b;\n" := by
    decide +kernel
  have hall : Segment.all "int b;\n".toList =
      [.whole (.keyword .int) none ['i', 'n', 't'], ⟨[' '], .gap⟩, .whole .identifier none ['b'],
        .whole (.symbol .semi) none [';'], ⟨['\n'], .gap⟩] := by decide +kernel
  have hscan : (Scan.ofText "int b;\n").result "int b;\n" = .ok [⟨.keyword .int, "int", none,
      ⟨1, 1⟩⟩, ⟨.identifier, "b", none, ⟨1, 5⟩⟩, ⟨.symbol .semi, ";", none, ⟨1, 6⟩⟩] := by
    rw [Scan.ofText, hall]
    rfl
  rw [← htext] at hscan
  exact exists_compile_of_spelled (p := .variable ⟨.int, false⟩ ⟨.identifier, "b", none, ⟨1, 5⟩⟩
    none .empty) hresult hscan (by decide) (by decide +kernel)

/-- The second one declares nothing, whatever was written before it is compiled. -/
theorem compile_secondTwin (content : ByteArray) : ∃ c,
    (compile (intoOut []).config (twinsWith content).toFileSystem ⟨"y/a.c"⟩).result = .ok c ∧
      c.parse.tree.outline = .node "Unit" [] [.node "Body" [] []] := by
  have hstores : twins.Stores ⟨"y/a.c"⟩ ["current", "y", "a.c"] "".toUTF8 := ⟨rfl, rfl⟩
  have hne : twins.locate (treePath ⟨"out"⟩ ⟨"x/a.c"⟩) ≠ .ok ["current", "y", "a.c"] := by
    rw [treePath_firstTwin, locate_twins]
    decide
  have hafter : (twinsWith content).Stores ⟨"y/a.c"⟩ ["current", "y", "a.c"] "".toUTF8 :=
    hstores.write (write_firstTwin content) hne
  have hread : (twinsWith content).toFileSystem.read ⟨"y/a.c"⟩ = .ok "" := hafter.read
  have hlines : Line.ofTexts 0 0 (lineTexts "") = [] := by decide +kernel
  have hkept : ∀ l ∈ Line.ofTexts 0 0 (lineTexts ""), l.isKept = true := by
    rw [hlines]
    exact nofun
  obtain ⟨hresult, -⟩ := Preprocess.preprocess_of_isKept (intoOut []).config hread hkept
  rw [hlines] at hresult
  have htext : LogicalText.text ⟨#[], ⟨#[⟨"y/a.c"⟩]⟩⟩ = "" := by decide +kernel
  have hscan : (Scan.ofText "").result "" = .ok [] := by
    have hall : Segment.all "".toList = [] := by decide +kernel
    rw [Scan.ofText, hall]
    rfl
  rw [← htext] at hscan
  exact exists_compile_of_spelled (p := .empty) hresult hscan (by decide) (by decide +kernel)

/-- Writing the second tree puts another content into the same file. -/
theorem write_secondTwin (content content' : ByteArray) :
    (twinsWith content).write (treePath ⟨"out"⟩ ⟨"y/a.c"⟩) content' = .ok (twinsWith content') := by
  have hfile : twins.entry? ["current", "out", "a.tree.json"] ≠ some .directory := by
    rw [entry?_twins]
    exact nofun
  have hentry : FileTree.entry? (twinsWith content) ["current", "out", "a.tree.json"] =
      some (.file content) := FileTree.entry?_set_self (List.cons_ne_nil _ _)
  have hlocate : (twinsWith content).locate ⟨"out/a.tree.json"⟩ =
      .ok ["current", "out", "a.tree.json"] := FileTree.locate_set hfile locate_twins
  rw [treePath_secondTwin, FileTree.write, hlocate]
  simp only [hentry]
  simp [twinsWith, FileTree.set]

/-- A command with two inputs of one name writes both trees to one file. -/
theorem exists_finishes_twins : ∃ first second files',
    Finishes ["-o", "out", "--", "x/a.c", "y/a.c"] (intoOut [⟨"x/a.c"⟩, ⟨"y/a.c"⟩]) ⟨"out"⟩ twins
      files' [(⟨"x/a.c"⟩, some first), (⟨"y/a.c"⟩, some second)] ∧
    first.document ≠ second.document := by
  obtain ⟨first, hfirst, houtline⟩ := compile_firstTwin
  obtain ⟨second, hsecond, houtline'⟩ := compile_secondTwin first.document.toUTF8
  refine ⟨first, second, twinsWith second.document.toUTF8,
    ⟨request_twins, rfl, rfl, rfl, twins, makeDirectories_twins, ?_⟩, ?_⟩
  · exact .written hfirst (write_firstTwin _) (.written hsecond (write_secondTwin _ _) (.done _))
  · rw [Compilation.document, Compilation.document, houtline, houtline']
    exact document_twins

/-- The tree of the second input is found in the file. -/
theorem run_read_secondTwin : ∃ first second files',
    Finishes ["-o", "out", "--", "x/a.c", "y/a.c"] (intoOut [⟨"x/a.c"⟩, ⟨"y/a.c"⟩]) ⟨"out"⟩ twins
      files' [(⟨"x/a.c"⟩, some first), (⟨"y/a.c"⟩, some second)] ∧
    (run ["-o", "out", "--", "x/a.c", "y/a.c"] twins).files.read (treePath ⟨"out"⟩ ⟨"y/a.c"⟩) =
      .ok second.document := by
  obtain ⟨first, second, files', hfinishes, -⟩ := exists_finishes_twins
  obtain ⟨-, hread⟩ := run_read_treePath hfinishes
  exact ⟨first, second, files', hfinishes,
    hread [(⟨"x/a.c"⟩, some first)] ⟨"y/a.c"⟩ second [] rfl (by simp)⟩

/-- Not every tree is found in its file: that of the first input is not. -/
theorem not_forall_read_treePath :
    ¬ ∀ (arguments : List String) (o : Options) (directory : Path) (files files' : FileTree)
      (turns : List (Path × Option Compilation)),
      Finishes arguments o directory files files' turns → o.inputs.Nodup →
        ∀ input c, (input, some c) ∈ turns →
          (run arguments files).files.read (treePath directory input) = .ok c.document := by
  intro hall
  obtain ⟨first, second, files', hfinishes, hne⟩ := exists_finishes_twins
  have hread := hall _ _ _ _ _ _ hfinishes (by decide)
  have hfirst := hread ⟨"x/a.c"⟩ first (by simp)
  have hsecond := hread ⟨"y/a.c"⟩ second (by simp)
  rw [treePath_firstTwin] at hfirst
  rw [treePath_secondTwin, hfirst] at hsecond
  exact hne (Except.ok.inj hsecond)

end SmallC.CommandLine
