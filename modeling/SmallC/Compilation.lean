import SmallC.Parse
import SmallC.Preprocessor
import SmallC.Scan
import SmallC.Tree.Outline

/-!
# Compilation

A file is preprocessed, its text is scanned, and the tokens are parsed. A fault in
one of the first two stages ends the compilation of the file; faults of
declarations are part of the result.
-/

namespace SmallC

/-- What is to be made of the compiled files. -/
inductive OutputType where
  | executable
  | library
  deriving DecidableEq, Inhabited, Repr

/-- The options that only say what the output is. -/
structure OutputOptions where
  /-- The directory for the trees of the files. -/
  directory : Option Path
  /-- What the output is. -/
  type : OutputType
  /-- The libraries to link with. -/
  libraries : List String
  deriving DecidableEq, Repr

/-- Why a file could not be compiled. -/
inductive CompilationError where
  | directive (d : Diagnostic)
  | spelling (failure : ScanFailure)
  | file (fault : FileFault)
  deriving DecidableEq, Repr

namespace CompilationError

/-- The wording of what is behind an error. -/
def cause : CompilationError → String
  | .directive d => d.message
  | .spelling failure => failure.message
  | .file fault => fault.message

/-- The wording of an error. -/
def message : CompilationError → String
  | .directive d => "Compile error: " ++ d.message
  | .spelling failure => "Lex error:\n" ++ failure.message
  | .file fault => "I/O error: " ++ fault.message

/-- The wording of an error, with paths in place of the numbers of files. -/
def messageIn (files : Registry) : CompilationError → String
  | .directive d => d.messageIn files
  | e => e.message

end CompilationError

/-- A compiled file. -/
structure Compilation where
  /-- The lines after inclusion. -/
  text : LogicalText
  /-- The tokens. -/
  tokens : List Token
  /-- The declarations. -/
  parse : Parse

namespace Compilation

/-- The file and line that a position stands for, its line being that of the text
after inclusion. -/
def origin? (c : Compilation) (p : Position) : Option String :=
  (c.text.origin? p.line.toNat).map c.text.files.describe

/-- The path of the tree of an input in a directory: the name of the input
without its last extension, or `out` if it has no name. -/
def treePath (directory input : Path) : Path :=
  directory.join ⟨input.stem?.getD "out" ++ ".tree.json"⟩

/-- The tree as a document. -/
def document (c : Compilation) : String := c.parse.tree.outline.document

/-- What is reported when a document was written. -/
def writtenRecord (path : Path) : Log.Record := ⟨.debug, .pipeline, "wrote " ++ path.text⟩

/-- What compiling a file gives, and what it leaves behind even if it fails. -/
structure Outcome where
  /-- The compiled file, or what stopped it. -/
  result : Except CompilationError Compilation
  /-- The files met. -/
  files : Registry
  /-- The records. -/
  log : List Log.Record

/-- Scans and parses the lines of a text. -/
def ofLines (path : Path) (text : LogicalText) :
    Except CompilationError Compilation × List Log.Record :=
  let source := text.text
  let scan := Scan.ofText source
  match scan.result source with
  | .error failure => (.error (.spelling failure), [scan.record])
  | .ok tokens =>
    let parse := Parse.ofTokens tokens
    let count : Log.Record := ⟨.debug, .pipeline, s!"{path.text}: {tokens.length} tokens"⟩
    (.ok ⟨text, tokens, parse⟩, [scan.record, count, parse.record tokens.length])

end Compilation

/-- Compiles the file at a path. -/
def compile (config : PreprocessConfig) (fs : FileSystem) (path : Path) : Compilation.Outcome :=
  let p := preprocess config fs path
  match p.result with
  | .error d => ⟨.error (.directive d), p.files, p.log⟩
  | .ok text =>
    let (result, log) := Compilation.ofLines path text
    ⟨result, p.files, p.log ++ log⟩

/-- Compiles the file at a path, after the files that a preprocessor was run on before. -/
def Preprocessor.compile (p : Preprocessor) (fs : FileSystem) (path : Path) :
    Preprocessor × Compilation.Outcome :=
  match p.run fs path with
  | (p, .error d) => (p, ⟨.error (.directive d), p.files, p.log⟩)
  | (p, .ok text) =>
    let (result, log) := Compilation.ofLines path text
    (p, ⟨result, p.files, p.log ++ log⟩)

end SmallC
