import SmallC.CommandLine.Options
import SmallC.FileTree
import SmallC.Tree.Sexp

/-!
# The command line

A command compiles its inputs one after the other and prints what became of them.
An input that fails does not keep the others from being compiled, but the command
then fails as a whole. Only a file that cannot be written ends the command.
-/

namespace SmallC.CommandLine

/-- What is to be done for one input. -/
structure Report where
  /-- The standard output. -/
  output : String
  /-- The standard error. -/
  errors : String
  /-- The input was compiled without a fault. -/
  succeeded : Bool
  /-- A file to write, whose path is then printed. -/
  document : Option (Path × String)
  /-- The records. -/
  log : List Log.Record

/-- A text as a line. -/
def asLine (text : String) : String := text.push '\n'

/-- The line of a diagnostic, with the file and line that its position stands for. -/
def diagnosticLine (c : Compilation) (d : Diagnostic) : String :=
  match c.origin? d.position with
  | some origin => asLine s!"{d.message} (in {origin})"
  | none => asLine d.message

/-- The report on a compiled input. -/
def reportOn (o : Options) (input : Path) (c : Compilation) (log : List Log.Record) : Report :=
  let tokens := if o.tokens then String.join (c.tokens.map fun t => asLine t.text) else ""
  let errors := String.join (c.parse.diagnostics.map (diagnosticLine c))
  let succeeded := c.parse.succeeded
  match o.output.directory with
  | some directory =>
    ⟨tokens, errors, succeeded, some (Compilation.treePath directory input, c.document), log⟩
  | none =>
    let tree := if o.json then asLine c.document else Sexp.lines c.parse.tree.outline
    ⟨tokens ++ tree, errors, succeeded, none, log⟩

/-- The report on an input, and the preprocessor behind it. -/
def report (o : Options) (fs : FileSystem) (p : Preprocessor) (input : Path) :
    Preprocessor × Report :=
  if o.preprocessOnly then
    match p.run fs input with
    | (p, .ok text) => (p, ⟨text.text, "", true, none, p.log⟩)
    | (p, .error d) => (p, ⟨"", asLine (d.messageIn p.files), false, none, p.log⟩)
  else
    let (p, c) := p.compile fs input
    match c.result with
    | .ok compiled => (p, reportOn o input compiled c.log)
    | .error (.spelling failure) =>
      (p, ⟨"", asLine (input.text ++ ":") ++ asLine failure.message, false, none, c.log⟩)
    | .error e => (p, ⟨"", asLine (e.messageIn c.files), false, none, c.log⟩)

/-- The line of a fault that ends a command. -/
def failureLine (message : String) : String := asLine ("Error: " ++ message)

/-- The fault of a document that cannot be written. -/
def writeFailure (fault : FileFault) : String := failureLine (CompilationError.file fault).message

/-- What a command leaves behind. -/
structure Result where
  /-- The exit status. -/
  status : Nat
  /-- The standard output. -/
  output : String
  /-- The standard error. -/
  errors : String
  /-- The files. -/
  files : FileTree

/-- The result with one more report; a document that cannot be written ends the
command. -/
def Result.add (r : Result) (report : Report) : Except Result Result :=
  let r := { r with
    output := r.output ++ report.output
    errors := r.errors ++ report.errors
    status := if report.succeeded then r.status else 1 }
  match report.document with
  | none => .ok r
  | some (path, content) =>
    match r.files.write path content.toUTF8 with
    | .ok files => .ok { r with files, output := r.output ++ asLine path.text }
    | .error fault => .error { r with status := 1, errors := r.errors ++ writeFailure fault }

/-- The result after all inputs, which one preprocessor is run on. -/
def Result.addAll (o : Options) (p : Preprocessor) (r : Result) : List Path → Result
  | [] => r
  | input :: inputs =>
    let (p, report) := report o r.files.toFileSystem p input
    match r.add report with
    | .ok r => addAll o p r inputs
    | .error r => r

/-- What compiling the inputs of a command leaves behind. The directory for the
trees is made first. -/
def compileAll (o : Options) (files : FileTree) : Result :=
  let start (files : FileTree) : Result := ⟨0, "", "", files⟩
  let p := Preprocessor.new o.config
  match o.output.directory with
  | none => (start files).addAll o p o.inputs
  | some directory =>
    match files.makeDirectories directory with
    | .error fault => ⟨1, "", failureLine fault.message, files⟩
    | .ok files => (start files).addAll o p o.inputs

/-- The line of the version. -/
def versionLine : String := asLine "minicc 0.1.0"

/-- What a command leaves behind. -/
def run (arguments : List String) (files : FileTree) : Result :=
  match Request.ofArguments arguments with
  | .version => ⟨0, versionLine, "", files⟩
  | .help => ⟨0, "", "", files⟩
  | .misuse => ⟨2, "", "", files⟩
  | .compile options => compileAll options files

end SmallC.CommandLine
