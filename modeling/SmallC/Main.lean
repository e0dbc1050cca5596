import SmallC.CommandLine

/-!
# The program

The command line over the real file system. Before an input is compiled, the
files that it may include are read, and what becomes of it depends on them alone.
-/

namespace SmallC.Program

open SmallC.CommandLine

/-- The fault of a system error number, which may be given with its sign changed. -/
def ofCode (code : UInt32) (details : String) : FileFault :=
  match (if code < 0x80000000 then code else -code).toNat with
  | 2 => .notFound
  | 17 => .alreadyExists
  | 20 => .notDirectory
  | 21 => .isDirectory
  | n => .other s!"{details} (os error {n})"

/-- The fault behind an error of the system. -/
def faultOf (e : IO.Error) : FileFault :=
  match e with
  | .noFileOrDirectory _ code details => ofCode code details
  | .alreadyExists _ code details => ofCode code details
  | .inappropriateType _ code details => ofCode code details
  | .permissionDenied _ code details => ofCode code details
  | .resourceExhausted _ code details => ofCode code details
  | .invalidArgument _ code details => ofCode code details
  | e => .other (toString e)

/-- The result of an action, or the fault that ended it. -/
def attempt {α : Type} (action : IO α) : IO (Except FileFault α) := do
  match ← action.toBaseIO with
  | .ok a => return .ok a
  | .error e => return .error (faultOf e)

/-- The text of a file. -/
def readText (path : Path) : IO (Except FileFault String) := do
  match ← attempt (IO.FS.readBinFile path.text) with
  | .error fault => return .error fault
  | .ok content =>
    match String.fromUTF8? content with
    | some text => return .ok text
    | none => return .error .notText

/-- What is known about the paths that were looked at. -/
abbrev Known := List (String × Except FileFault String)

/-- The file system as far as it is known. -/
def Known.toFileSystem (known : Known) : FileSystem where
  isFile path :=
    match known.lookup path.text with
    | some (.ok _) => true
    | some (.error .notText) => true
    | some (.error (.other _)) => true
    | _ => false
  read path := (known.lookup path.text).getD (.error .notFound)

/-- The header names in the `#include` lines of a text. -/
def headerNames (source : String) : List Directive.HeaderName :=
  (lineTexts source).filterMap fun line =>
    match Directive.ofLine? line.toList with
    | some (.include target) => (Directive.headerName target).toOption
    | _ => none

/-- Looks at paths, each with the depth at which it may be included, and at those
that the files there may include. -/
partial def look (config : PreprocessConfig) (known : Known) : List (Path × Nat) → IO Known
  | [] => return known
  | (path, depth) :: rest => do
    if (known.lookup path.text).isSome || depth > config.maxDepth then look config known rest
    else
      let content ← readText path
      let names := match content with
        | .ok source => headerNames source
        | .error _ => []
      let next := names.flatMap (Preprocess.candidates config (some path))
      look config ((path.text, content) :: known) (rest ++ next.map (·, depth + 1))

/-- Prints the records that matter enough. -/
def printLog (o : Options) (log : List Log.Record) : IO Unit := do
  let stderr ← IO.getStderr
  for r in Log.upTo (if o.verbose then .debug else .warning) log do
    let severity := if r.severity = .warning then "WARN" else "DEBUG"
    stderr.putStr (asLine s!"[{severity}] {r.message}")

/-- Compiles the inputs of a command and gives its exit status. -/
def compileInputs (o : Options) : IO UInt32 := do
  let stdout ← IO.getStdout
  let stderr ← IO.getStderr
  if let some directory := o.output.directory then
    if let .error fault ← attempt (IO.FS.createDirAll directory.text) then
      stderr.putStr (failureLine fault.message)
      return 1
  let mut status : UInt32 := 0
  let mut preprocessor := Preprocessor.new o.config
  for input in o.inputs do
    let known ← look o.config [] [(input, 0)]
    let (next, r) := report o known.toFileSystem preprocessor input
    preprocessor := next
    printLog o r.log
    stdout.putStr r.output
    stderr.putStr r.errors
    if !r.succeeded then status := 1
    if let some (path, content) := r.document then
      match ← attempt (IO.FS.writeFile path.text content) with
      | .ok () => stdout.putStr (asLine path.text)
      | .error fault =>
        stderr.putStr (writeFailure fault)
        return 1
  return status

end SmallC.Program

/-- How the command is used. -/
def SmallC.Program.usageLine : String :=
  SmallC.CommandLine.asLine "usage: minicc [OPTIONS] <INPUTS>..."

/-- Runs the command with its arguments. -/
def main (arguments : List String) : IO UInt32 := do
  match SmallC.CommandLine.Request.ofArguments arguments with
  | .compile o => SmallC.Program.compileInputs o
  | .version =>
    (← IO.getStdout).putStr SmallC.CommandLine.versionLine
    return 0
  | .help =>
    (← IO.getStdout).putStr SmallC.Program.usageLine
    return 0
  | .misuse =>
    (← IO.getStderr).putStr SmallC.Program.usageLine
    return 2
