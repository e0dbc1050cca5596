import SmallC.Condition
import SmallC.Conditionals
import SmallC.Directive
import SmallC.FileSystem
import SmallC.Line
import SmallC.Log

/-!
# Preprocessing

The lines of a file are taken one after the other. A directive line becomes
blank, and so does every line of a branch that is not taken; all other lines stay
as they are. The lines of an included file are put in front of the lines still to
be taken, one deeper than the line that includes them, and a limit on the depth
makes the process end.
-/

namespace SmallC

/-- What preprocessing depends on besides the files. -/
structure PreprocessConfig where
  /-- The directories to look for included files in. -/
  includeDirectories : List Path
  /-- The macros that are defined from the start, with their bodies. -/
  predefined : List (String × Option String)
  /-- How deep inclusions may be nested. -/
  maxDepth : Nat
  deriving DecidableEq, Repr

/-- The usual limit on the depth of inclusion. -/
def PreprocessConfig.defaultMaxDepth : Nat := 64

namespace Preprocess

/-- What the lines so far have left behind. -/
structure State where
  /-- The files met so far. -/
  files : Registry
  /-- The macros defined at this point. -/
  macros : MacroTable
  /-- The groups open at this point. -/
  conditionals : Conditionals
  /-- The records so far. -/
  log : Array Log.Record

namespace State

/-- The state with one more record. -/
def report (s : State) (severity : Log.Severity) (message : String) : State :=
  { s with log := s.log.push ⟨severity, .preprocessor, message⟩ }

/-- The state before the first line of any file. -/
def start (config : PreprocessConfig) : State where
  files := Registry.empty
  macros := config.predefined.foldl
    (fun table (name, body) => table.insert ⟨name, none, body.getD "1", default, true⟩)
    MacroTable.empty
  conditionals := Conditionals.none
  log := #[]

end State

/-- What becomes of a line. -/
inductive Effect where
  /-- It stays as it is. -/
  | keep
  /-- It becomes blank. -/
  | blank
  /-- It becomes blank, and the lines of the file at a path come after it. -/
  | enter (path : Path)
  deriving DecidableEq, Repr

/-- The value of a condition, as a fault of its directive if it has none. -/
def holds (s : State) (arguments : List DirectiveToken.Placed) : Except DirectiveFault Bool :=
  match Condition.evaluate s.macros (arguments.map (·.token)) with
  | .ok value => .ok (value != 0)
  | .error fault => .error (.malformedCondition fault.message)

/-- The paths that a header name may mean, in the order in which they are tried.
A quoted name is first looked up beside the including file, and last as it is. -/
def candidates (config : PreprocessConfig) (includer : Option Path) :
    Directive.HeaderName → List Path
  | .quoted path =>
    ((includer.bind Path.parent?).map (·.join path)).toList ++
      config.includeDirectories.map (·.join path) ++ [path]
  | .angled path => config.includeDirectories.map (·.join path)

/-- The effect of a `#include` line: the first file that its header name may mean
is entered. -/
def inclusion (config : PreprocessConfig) (fs : FileSystem) (s : State) (line : Line)
    (target : List Char) : Except DirectiveFault Effect :=
  match Directive.headerName target with
  | .error fault => .error fault
  | .ok header =>
    match (candidates config (s.files.get? line.file) header).find? fs.isFile with
    | none => .error (.includeNotFound header.path)
    | some path => .ok (.enter path)

/-- The effect of a `#define` line. -/
def define (s : State) (line : Line) (arguments : List DirectiveToken.Placed) :
    State × Except DirectiveFault Effect :=
  match Directive.definition arguments with
  | .error fault => (s, .error fault)
  | .ok d =>
    let m : Macro := ⟨d.name, d.parameters, d.body, line.location, false⟩
    let count := m.parameterNames.length
    let s := s.report .trace s!"define {d.name} ({count} params) = {Text.quoted d.body}"
    ({ s with macros := s.macros.insert m }, .ok .blank)

/-- The effect of an `#undef` line. -/
def undef (s : State) (arguments : List DirectiveToken.Placed) :
    State × Except DirectiveFault Effect :=
  match Directive.undefined arguments with
  | .error fault => (s, .error fault)
  | .ok name => ({ s with macros := s.macros.erase name }, .ok .blank)

/-- The effect of a line that opens a group: whether its first branch is taken is
asked only among live lines. -/
def openGroup (s : State) (line : Line) (taken : Unit → Except DirectiveFault Bool) :
    State × Except DirectiveFault Effect :=
  if s.conditionals.live then
    match taken () with
    | .error fault => (s, .error fault)
    | .ok active =>
      ({ s with conditionals := s.conditionals.openGroup active line.location }, .ok .blank)
  else ({ s with conditionals := s.conditionals.openDead line.location }, .ok .blank)

/-- The effect of an `#elif` line: its condition is asked only if no branch
before it was taken and the lines around the group are live. -/
def elif (s : State) (arguments : List DirectiveToken.Placed) :
    State × Except DirectiveFault Effect :=
  match s.conditionals.groups with
  | [] => (s, .error (.malformed "#elif without matching #if"))
  | group :: _ =>
    if group.isLast then (s, .error .elifAfterElse)
    else if group.taken || !s.conditionals.outerLive then
      ({ s with conditionals := s.conditionals.nextBranch false false }, .ok .blank)
    else
      match holds s arguments with
      | .error fault => (s, .error fault)
      | .ok active =>
        ({ s with conditionals := s.conditionals.nextBranch active false }, .ok .blank)

/-- The effect of an `#else` line. -/
def otherwise (s : State) : State × Except DirectiveFault Effect :=
  match s.conditionals.groups with
  | [] => (s, .error .elseWithoutIf)
  | group :: _ =>
    if group.isLast then (s, .error .elseWithoutIf)
    else
      let active := s.conditionals.outerLive && !group.taken
      ({ s with conditionals := s.conditionals.nextBranch active true }, .ok .blank)

/-- The effect of an `#endif` line. -/
def endif (s : State) : State × Except DirectiveFault Effect :=
  match s.conditionals.groups with
  | [] => (s, .error .endifWithoutIf)
  | _ :: _ => ({ s with conditionals := s.conditionals.close }, .ok .blank)

/-- The effect of a directive. -/
def directive (config : PreprocessConfig) (fs : FileSystem) (s : State) (line : Line) :
    Directive → State × Except DirectiveFault Effect
  | .empty => (s, .ok .blank)
  | .define arguments => if s.conditionals.live then define s line arguments else (s, .ok .blank)
  | .undef arguments => if s.conditionals.live then undef s arguments else (s, .ok .blank)
  | .include target =>
    if s.conditionals.live then (s, inclusion config fs s line target) else (s, .ok .blank)
  | .ifdef arguments =>
    openGroup s line fun _ => (Directive.tested arguments).map s.macros.contains
  | .ifndef arguments =>
    openGroup s line fun _ => (Directive.tested arguments).map (!s.macros.contains ·)
  | .if arguments => openGroup s line fun _ => holds s arguments
  | .elif arguments => elif s arguments
  | .else => otherwise s
  | .endif => endif s
  | .unknown name =>
    if s.conditionals.live then
      (s.report .warning s!"{line.file}:{line.number}: ignoring unknown directive #{name}",
        .ok .keep)
    else (s, .ok .blank)

/-- The effect of a line. -/
def step (config : PreprocessConfig) (fs : FileSystem) (s : State) (line : Line) :
    State × Except DirectiveFault Effect :=
  match Directive.ofLine? line.text.toList with
  | none => (s, .ok (if s.conditionals.live then .keep else .blank))
  | some d =>
    let s := match d.name? with
      | some name => s.report .trace s!"{line.file}:{line.number}: #{name}"
      | none => s
    directive config fs s line d

/-- Opens the file at a path: its number and the texts of its lines. A file gets
its number even if it cannot be read. -/
def openFile (fs : FileSystem) (s : State) (path : Path) :
    State × Except DirectiveFault (Nat × List String) :=
  let (files, file) := s.files.register path
  let s := { s with files }
  match fs.read path with
  | .error fault => (s, .error (.unreadableFile path fault.message))
  | .ok source => (s, .ok (file, lineTexts source))

/-- The lines still to be taken, under a limit on their depth. -/
structure Pending (limit : Nat) where
  /-- The lines. -/
  lines : List Line

namespace Pending

/-- One line is taken away, and lines that may be deepened less often are put in
its place. -/
def Reduces (limit : Nat) (a b : Pending limit) : Prop :=
  ∃ line rest new, b.lines = line :: rest ∧ a.lines = new ++ rest ∧
    ∀ l ∈ new, limit - l.depth < limit - line.depth

/-- Lines can be put in front of lines from which a run ends, if they are deep enough: the induction
is on how much deeper than their depth an inclusion may still go. -/
theorem acc_append {limit : Nat} (n : Nat) {rest : List Line}
    (hrest : Acc (Reduces limit) ⟨rest⟩) (new : List Line)
    (hnew : ∀ l ∈ new, limit - l.depth < n) :
    Acc (Reduces limit) ⟨new ++ rest⟩ := by
  induction n generalizing new rest with
  | zero =>
    cases new with
    | nil => exact hrest
    | cons l new => exact absurd (hnew l (by simp)) (by omega)
  | succ n ih =>
    induction new with
    | nil => exact hrest
    | cons line new ihnew =>
      have hline := hnew line (by simp)
      have htail := ihnew fun l hl => hnew l (by simp [hl])
      constructor
      rintro ⟨lines⟩ ⟨line', rest', inserted, hb, ha, hinserted⟩
      simp only [List.cons_append, List.cons.injEq] at hb ha
      obtain ⟨rfl, rfl⟩ := hb
      subst ha
      exact ih htail inserted fun l hl => by have := hinserted l hl; omega

/-- Taking lines comes to an end. -/
theorem reduces_wellFounded (limit : Nat) : WellFounded (Reduces limit) := by
  constructor
  rintro ⟨lines⟩
  have hnil : Acc (Reduces limit) ⟨[]⟩ := by
    constructor
    rintro _ ⟨_, _, _, h, _⟩
    simp at h
  have := acc_append (limit + 1) hnil lines fun l _ => by omega
  simpa using this

/-- Lists of lines that are left are compared by the steps that a run can make from them. -/
instance (limit : Nat) : WellFoundedRelation (Pending limit) :=
  ⟨Reduces limit, reduces_wellFounded limit⟩

end Pending

/-- The lines that are left when all lines have been taken, after the reversed
`done`. Every group has to be closed then. -/
def run (config : PreprocessConfig) (fs : FileSystem) (s : State) (done pending : List Line) :
    State × Except Diagnostic (List Line) :=
  match pending with
  | [] =>
    match s.conditionals.groups with
    | [] => (s, .ok done.reverse)
    | group :: _ => (s, .error (.directive group.location .missingEndif))
  | line :: rest =>
    match step config fs s line with
    | (s, .error fault) => (s, .error (.directive line.location fault))
    | (s, .ok .keep) => run config fs s (line :: done) rest
    | (s, .ok .blank) => run config fs s (line.blank :: done) rest
    | (s, .ok (.enter path)) =>
      if _hlimit : line.depth < config.maxDepth then
        match openFile fs s path with
        | (s, .error fault) => (s, .error (.directive line.location fault))
        | (s, .ok (file, texts)) =>
          let s := s.report .debug s!"include {path.text} ({texts.length} lines)"
          run config fs s (line.blank :: done) (Line.ofTexts file (line.depth + 1) texts ++ rest)
      else (s, .error (.directive line.location (.includeTooDeep path)))
termination_by (⟨pending⟩ : Pending config.maxDepth)
decreasing_by
  · exact ⟨line, rest, [], rfl, rfl, by simp⟩
  · exact ⟨line, rest, [], rfl, rfl, by simp⟩
  · refine ⟨line, rest, _, rfl, rfl, fun l hl => ?_⟩
    have hdepth := Line.depth_of_mem_ofTexts hl
    omega

/-- What preprocessing a file gives, and what it leaves behind even if it fails. -/
structure Outcome where
  /-- The lines after inclusion, or what stopped it. -/
  result : Except Diagnostic LogicalText
  /-- The files met. -/
  files : Registry
  /-- The macros defined at the end. -/
  macros : MacroTable
  /-- The records. -/
  log : List Log.Record

/-- The state with a record of a run that left some lines, for the file at a path. -/
def State.reportEnd (s : State) (path : Path) (count : Nat) : State :=
  let macros := s!"{s.macros.size} macros ({s.macros.userDefined.length} from source)"
  s.report .debug
    s!"preprocessed {path.text}: {count} logical lines, {s.files.size} files, {macros}"

/-- What the end of a run gives, for the file at a path. -/
def conclude (path : Path) : State × Except Diagnostic (List Line) → Outcome
  | (s, .error d) => ⟨.error d, s.files, s.macros, s.log.toList⟩
  | (s, .ok lines) =>
    let s := s.reportEnd path lines.length
    ⟨.ok ⟨lines.toArray, s.files⟩, s.files, s.macros, s.log.toList⟩

end Preprocess

/-- Preprocesses the file at a path. -/
def preprocess (config : PreprocessConfig) (fs : FileSystem) (path : Path) : Preprocess.Outcome :=
  Preprocess.conclude path <|
    match Preprocess.openFile fs (Preprocess.State.start config) path with
    | (s, .error fault) => (s, .error (.directive default fault))
    | (s, .ok (file, texts)) => Preprocess.run config fs s [] (Line.ofTexts file 0 texts)

end SmallC
