import SmallC.Preprocess

/-!
# Preprocessors

A preprocessor is made once and run on one file after the other. During a run the lines
stand in a buffer, where a line is changed in its place, and the lines of an included file
are put in behind the line that includes it. A run that fails leaves everything as it is at
that moment, and the next run starts by clearing it.
-/

namespace SmallC

namespace Preprocess

/-- What taking a line leaves: the line in its place, and the lines behind it. -/
def takeLine (config : PreprocessConfig) (fs : FileSystem) (s : State) (line : Line) :
    State × Except Diagnostic (Line × List Line) :=
  match step config fs s line with
  | (s, .error fault) => (s, .error (.directive line.location fault))
  | (s, .ok .keep) => (s, .ok (line, []))
  | (s, .ok .blank) => (s, .ok (line.blank, []))
  | (s, .ok (.enter path)) =>
    if line.depth < config.maxDepth then
      match openFile fs s path with
      | (s, .error fault) => (s, .error (.directive line.location fault))
      | (s, .ok (file, texts)) =>
        let s := s.report .debug s!"include {path.text} ({texts.length} lines)"
        (s, .ok (line.blank, Line.ofTexts file (line.depth + 1) texts))
    else (s, .error (.directive line.location (.includeTooDeep path)))

/-- The state of a run, with the buffer of its lines. -/
structure Buffer where
  /-- The state. -/
  state : State
  /-- The lines that were taken, and those still to be taken. -/
  lines : Array Line

namespace Buffer

variable {config : PreprocessConfig} {fs : FileSystem} {b b' : Buffer} {index : Nat}

/-- A line is put in the place of another one, and lines are put in behind it. -/
def replace (lines : Array Line) (index : Nat) (hindex : index < lines.size) (line : Line)
    (new : List Line) : Array Line :=
  let lines := lines.set index line
  match new with
  | [] => lines
  | new => lines.take (index + 1) ++ new.toArray ++ lines.drop (index + 1)

/-- Takes the line at an index. -/
def take (config : PreprocessConfig) (fs : FileSystem) (b : Buffer) (index : Nat)
    (hindex : index < b.lines.size) : Buffer × Except Diagnostic Unit :=
  match takeLine config fs b.state b.lines[index] with
  | (s, .error d) => ({ b with state := s }, .error d)
  | (s, .ok (line, new)) => (⟨s, replace b.lines index hindex line new⟩, .ok ())

/-- Dropping lines of an array is dropping them of its list. -/
theorem toList_drop (lines : Array Line) (n : Nat) :
    (lines.drop n).toList = lines.toList.drop n := by
  rw [Array.drop_eq_extract, Array.toList_extract, List.extract_eq_take_drop]
  exact List.take_of_length_le (by simp)

/-- Taking lines of an array is taking them of its list. -/
theorem toList_take (lines : Array Line) (n : Nat) :
    (lines.take n).toList = lines.toList.take n := by
  rw [Array.take_eq_extract, Array.toList_extract, List.extract_eq_take_drop]
  rfl

/-- The lines up to one that is replaced are as many as before. -/
theorem length_taken (lines : Array Line) (hindex : index < lines.size) (line : Line) :
    (lines.toList.take index ++ [line]).length = index + 1 := by
  rw [List.length_append, List.length_take, Array.length_toList, Nat.min_eq_left (by omega)]
  rfl

/-- The lines of a buffer after one of them was replaced: those before it, the new line, the lines
of an included file, and those behind it. -/
theorem toList_replace (lines : Array Line) (hindex : index < lines.size) (line : Line)
    (new : List Line) : (replace lines index hindex line new).toList =
      lines.toList.take index ++ line :: (new ++ lines.toList.drop (index + 1)) := by
  have hset : (lines.set index line).toList =
      lines.toList.take index ++ line :: lines.toList.drop (index + 1) := by
    rw [Array.toList_set, List.set_eq_take_append_cons_drop, if_pos (by simpa using hindex)]
  have hlength := length_taken lines hindex line
  unfold replace
  split
  · exact hset
  · rw [List.append_cons] at hset
    rw [Array.toList_append, Array.toList_append, toList_take, toList_drop, hset,
      List.take_left' hlength, List.drop_left' hlength]
    simp

/-- Lines are only put in behind a line that is less deep. -/
theorem depth_of_takeLine {s s' : State} {line l : Line} {new : List Line}
    (h : takeLine config fs s line = (s', .ok (l, new))) :
    ∀ m ∈ new, config.maxDepth - m.depth < config.maxDepth - line.depth := by
  unfold takeLine at h
  intro m hm
  split at h
  · cases h
  · cases h
    cases hm
  · cases h
    cases hm
  · split at h
    · split at h
      · cases h
      · cases h
        have hdepth := Line.depth_of_mem_ofTexts hm
        omega
    · cases h

/-- What is left behind a line that was taken is reduced. -/
theorem reduces_take {hindex : index < b.lines.size}
    (h : b.take config fs index hindex = (b', .ok ())) :
    Pending.Reduces config.maxDepth ⟨b'.lines.toList.drop (index + 1)⟩
      ⟨b.lines.toList.drop index⟩ := by
  unfold take at h
  split at h
  · cases h
  · rename_i s line new htake
    cases h
    refine ⟨b.lines[index], b.lines.toList.drop (index + 1), new, ?_, ?_, depth_of_takeLine htake⟩
    · rw [List.drop_eq_getElem_cons (by simpa using hindex)]
      rfl
    · rw [toList_replace, List.append_cons, List.drop_left' (length_taken b.lines hindex line)]

/-- Takes the lines from an index on, to the end of the buffer. -/
def walk (config : PreprocessConfig) (fs : FileSystem) (b : Buffer) (index : Nat) :
    Buffer × Except Diagnostic Unit :=
  if hindex : index < b.lines.size then
    match _htake : b.take config fs index hindex with
    | (b, .error d) => (b, .error d)
    | (b, .ok ()) => walk config fs b (index + 1)
  else
    match b.state.conditionals.groups with
    | [] => (b, .ok ())
    | group :: _ => (b, .error (.directive group.location .missingEndif))
termination_by (⟨b.lines.toList.drop index⟩ : Pending config.maxDepth)
decreasing_by exact reduces_take _htake

end Buffer

end Preprocess

/-- A preprocessor, with what its last run left behind. -/
structure Preprocessor where
  /-- What it depends on besides the files. -/
  config : PreprocessConfig
  /-- The state and the lines. -/
  buffer : Preprocess.Buffer

namespace Preprocessor

open Preprocess

/-- A preprocessor that was not run yet. -/
def new (config : PreprocessConfig) : Preprocessor :=
  ⟨config, ⟨⟨Registry.empty, MacroTable.empty, Conditionals.none, #[]⟩, #[]⟩⟩

/-- The files that the last run met. -/
def files (p : Preprocessor) : Registry := p.buffer.state.files

/-- The macros that were defined at the end of the last run. -/
def macros (p : Preprocessor) : MacroTable := p.buffer.state.macros

/-- The records of the last run. -/
def log (p : Preprocessor) : List Log.Record := p.buffer.state.log.toList

/-- Everything but the configuration is put back, and the macros are defined that are defined
from the start. -/
def reset (p : Preprocessor) : Preprocessor :=
  { p with buffer := ⟨State.start p.config, #[]⟩ }

/-- Preprocesses the file at a path. -/
def run (p : Preprocessor) (fs : FileSystem) (path : Path) :
    Preprocessor × Except Diagnostic LogicalText :=
  let p := p.reset
  match openFile fs p.buffer.state path with
  | (s, .error fault) =>
    ({ p with buffer := { p.buffer with state := s } }, .error (.directive default fault))
  | (s, .ok (file, texts)) =>
    match Buffer.walk p.config fs ⟨s, (Line.ofTexts file 0 texts).toArray⟩ 0 with
    | (buffer, .error d) => ({ p with buffer }, .error d)
    | (⟨s, lines⟩, .ok ()) =>
      let s := s.reportEnd path lines.size
      ({ p with buffer := ⟨s, #[]⟩ }, .ok ⟨lines, s.files⟩)

end Preprocessor

end SmallC
