import SmallC.Preprocess

/-!
# What one line can do

A line changes the macros, the open groups or the records, never the files, and only
an active `#include` enters a file. These facts hold of every directive by itself;
they are collected here for all statements about whole runs.
-/

namespace SmallC.Preprocess

namespace State

/-- A record leaves the files as they are. -/
@[simp] theorem report_files (s : State) (severity : Log.Severity) (message : String) :
    (s.report severity message).files = s.files := rfl

/-- A record leaves the macros as they are. -/
@[simp] theorem report_macros (s : State) (severity : Log.Severity) (message : String) :
    (s.report severity message).macros = s.macros := rfl

/-- A record leaves the open groups as they are. -/
@[simp] theorem report_conditionals (s : State) (severity : Log.Severity) (message : String) :
    (s.report severity message).conditionals = s.conditionals := rfl

/-- The first file of all gets the number zero. -/
theorem register_start (config : PreprocessConfig) (path : Path) :
    (start config).files.register path = (⟨#[path]⟩, 0) := by
  simp [start, Registry.empty, Registry.register, Registry.find?, Registry.size]

end State

/-- A line stays within the text: it meets no new file and enters none. -/
structure Stays (s : State) (r : State × Except DirectiveFault Effect) : Prop where
  files : r.1.files = s.files
  no_enter : ∀ path, r.2 ≠ .ok (.enter path)

/-- A definition enters no file. -/
theorem stays_define (s : State) (line : Line) (arguments : List DirectiveToken.Placed) :
    Stays s (define s line arguments) := by
  unfold define
  split
  · exact ⟨rfl, by simp⟩
  · exact ⟨rfl, by simp⟩

/-- An `#undef` enters no file. -/
theorem stays_undef (s : State) (arguments : List DirectiveToken.Placed) :
    Stays s (undef s arguments) := by
  unfold undef
  split
  · exact ⟨rfl, by simp⟩
  · exact ⟨rfl, by simp⟩

/-- A line that opens a group enters no file. -/
theorem stays_openGroup (s : State) (line : Line) (taken : Unit → Except DirectiveFault Bool) :
    Stays s (openGroup s line taken) := by
  unfold openGroup
  split
  · split
    · exact ⟨rfl, by simp⟩
    · exact ⟨rfl, by simp⟩
  · exact ⟨rfl, by simp⟩

/-- An `#elif` enters no file. -/
theorem stays_elif (s : State) (arguments : List DirectiveToken.Placed) :
    Stays s (elif s arguments) := by
  unfold elif
  split
  · exact ⟨rfl, by simp⟩
  · split
    · exact ⟨rfl, by simp⟩
    · split
      · exact ⟨rfl, by simp⟩
      · split
        · exact ⟨rfl, by simp⟩
        · exact ⟨rfl, by simp⟩

/-- An `#else` enters no file. -/
theorem stays_otherwise (s : State) : Stays s (otherwise s) := by
  unfold otherwise
  split
  · exact ⟨rfl, by simp⟩
  · split
    · exact ⟨rfl, by simp⟩
    · exact ⟨rfl, by simp⟩

/-- An `#endif` enters no file. -/
theorem stays_endif (s : State) : Stays s (endif s) := by
  unfold endif
  split
  · exact ⟨rfl, by simp⟩
  · exact ⟨rfl, by simp⟩

/-- Only an `#include` among live lines leaves the text. -/
theorem stays_directive (config : PreprocessConfig) (fs : FileSystem) (s : State) (line : Line)
    {d : Directive} (hd : ∀ target, d = .include target → s.conditionals.live = false) :
    Stays s (directive config fs s line d) := by
  have hblank : Stays s (s, .ok .blank) := ⟨rfl, by simp⟩
  cases d with
  | empty => exact hblank
  | define arguments =>
    simp only [directive]
    split
    · exact stays_define s line arguments
    · exact hblank
  | undef arguments =>
    simp only [directive]
    split
    · exact stays_undef s arguments
    · exact hblank
  | «include» target =>
    simp only [directive, hd target rfl]
    exact hblank
  | ifdef arguments =>
    rw [directive]
    exact stays_openGroup s line _
  | ifndef arguments =>
    rw [directive]
    exact stays_openGroup s line _
  | «if» arguments =>
    rw [directive]
    exact stays_openGroup s line _
  | elif arguments => exact stays_elif s arguments
  | «else» => exact stays_otherwise s
  | endif => exact stays_endif s
  | unknown name =>
    simp only [directive]
    split
    · exact ⟨rfl, by simp⟩
    · exact hblank

/-- The target of a line that is an active `#include`. -/
def activeInclusion? (s : State) (line : Line) : Option (List Char) :=
  match Directive.ofLine? line.text.toList with
  | some (.include target) => if s.conditionals.live then some target else none
  | _ => none

/-- The state once an active `#include` has been met at a line. -/
def State.including (s : State) (line : Line) : State :=
  s.report .trace s!"{line.file}:{line.number}: #include"

/-- Making ready for an inclusion meets no new file. -/
@[simp] theorem State.including_files (s : State) (line : Line) :
    (s.including line).files = s.files := rfl

/-- An active `#include` asks which file its target means. -/
theorem step_of_activeInclusion (config : PreprocessConfig) (fs : FileSystem) {s : State}
    {line : Line} {target : List Char} (h : activeInclusion? s line = some target) :
    step config fs s line =
      (s.including line, inclusion config fs (s.including line) line target) := by
  unfold activeInclusion? at h
  split at h
  · rename_i target' hline
    split at h
    · rename_i hlive
      obtain rfl := Option.some.inj h
      have hmessage (name : String) (hname : name = "include") :
          s!"{line.file}:{line.number}: #{name}" = s!"{line.file}:{line.number}: #include" := by
        subst hname
        rw [String.append_assoc]
        rfl
      simp only [step, hline, directive, Directive.name?, State.report_conditionals, hlive,
        hmessage _ rfl, if_true, State.including]
    · cases h
  · cases h

/-- No other line leaves the text. -/
theorem stays_step (config : PreprocessConfig) (fs : FileSystem) {s : State} {line : Line}
    (h : activeInclusion? s line = none) : Stays s (step config fs s line) := by
  unfold step
  split
  · split
    · exact ⟨rfl, by simp⟩
    · exact ⟨rfl, by simp⟩
  · rename_i d hline
    have hd : ∀ target, d = .include target → s.conditionals.live = false := by
      rintro target rfl
      simpa [activeInclusion?, hline] using h
    split
    · obtain ⟨hfiles, henter⟩ := stays_directive config fs (s.report .trace _) line hd
      exact ⟨hfiles, henter⟩
    · exact stays_directive config fs s line hd

/-- What a line leaves in the text. -/
def Effect.emitted (line : Line) : Effect → Line
  | .keep => line
  | .blank | .enter _ => line.blank

/-- A line that enters no file is taken by itself. -/
theorem run_cons_of_step {config : PreprocessConfig} {fs : FileSystem} {s s' : State}
    {line : Line} {effect : Effect} (hs : step config fs s line = (s', .ok effect))
    (henter : ∀ path, effect ≠ .enter path) (done pending : List Line) :
    run config fs s done (line :: pending) =
      run config fs s' (effect.emitted line :: done) pending := by
  rw [run, hs]
  cases effect with
  | keep => rfl
  | blank => rfl
  | enter path => exact absurd rfl (henter path)

/-- A line that is no active `#include` is taken by itself. -/
theorem run_cons_of_none {config : PreprocessConfig} {fs : FileSystem} {s s' : State}
    {line : Line} {effect : Effect} (hline : activeInclusion? s line = none)
    (hs : step config fs s line = (s', .ok effect)) (done pending : List Line) :
    run config fs s done (line :: pending) =
      run config fs s' (effect.emitted line :: done) pending := by
  have henter := (stays_step config fs hline).no_enter
  rw [hs] at henter
  exact run_cons_of_step hs (fun path heq => henter path (heq ▸ rfl)) done pending

/-- A fault ends the run. -/
theorem run_cons_of_fault {config : PreprocessConfig} {fs : FileSystem} {s s' : State}
    {line : Line} {fault : DirectiveFault} (hs : step config fs s line = (s', .error fault))
    (done pending : List Line) :
    run config fs s done (line :: pending) = (s', .error (.directive line.location fault)) := by
  rw [run, hs]

end SmallC.Preprocess
