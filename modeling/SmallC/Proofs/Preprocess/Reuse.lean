import SmallC.Compilation

/-!
# Preprocessors that are used again

A preprocessor works in place and keeps what a run left behind, also if the run failed in the
middle of a file. Here it is shown to give what a run over lists of lines gives, which starts
from nothing: so what was run before makes no difference.
-/

namespace SmallC

namespace Preprocess

variable {config : PreprocessConfig} {fs : FileSystem} {b : Buffer} {index : Nat}
  {done pending : List Line}

/-- A run takes the first line that is pending and goes on behind it. -/
theorem run_cons_takeLine (config : PreprocessConfig) (fs : FileSystem) (s : State)
    (done : List Line) (line : Line) (rest : List Line) :
    run config fs s done (line :: rest) =
      match takeLine config fs s line with
      | (s, .error d) => (s, .error d)
      | (s, .ok (l, new)) => run config fs s (l :: done) (new ++ rest) := by
  rw [run, takeLine]
  rcases step config fs s line with ⟨s₁, fault | effect⟩
  · rfl
  cases effect with
  | keep => rfl
  | blank => rfl
  | enter path =>
    by_cases hdepth : line.depth < config.maxDepth
    · rcases hopen : openFile fs s₁ path with ⟨s₂, fault | ⟨file, texts⟩⟩ <;>
        simp [hdepth, hopen]
    · simp [hdepth]

/-- The line at the index is the first one that is still to be taken. -/
theorem getElem_of_lines {line : Line} {rest : List Line}
    (hlines : b.lines.toList = done ++ line :: rest) (hdone : done.length = index)
    (hindex : index < b.lines.size) : b.lines[index] = line := by
  rw [← Array.getElem_toList]
  simp [hlines, ← hdone]

/-- A line that cannot be taken leaves the buffer as it is. -/
theorem take_of_error {line : Line} {rest : List Line} {s : State} {d : Diagnostic}
    (hlines : b.lines.toList = done ++ line :: rest) (hdone : done.length = index)
    (hindex : index < b.lines.size) (htaken : takeLine config fs b.state line = (s, .error d)) :
    b.take config fs index hindex = ({ b with state := s }, .error d) := by
  rw [Buffer.take, getElem_of_lines hlines hdone hindex, htaken]

/-- A line that was taken is replaced in the buffer. -/
theorem take_of_ok {line l : Line} {rest new : List Line} {s : State}
    (hlines : b.lines.toList = done ++ line :: rest) (hdone : done.length = index)
    (hindex : index < b.lines.size)
    (htaken : takeLine config fs b.state line = (s, .ok (l, new))) :
    b.take config fs index hindex = (⟨s, (done ++ l :: (new ++ rest)).toArray⟩, .ok ()) := by
  have hreplace : Buffer.replace b.lines index hindex l new =
      (done ++ l :: (new ++ rest)).toArray := by
    apply Array.toList_inj.mp
    rw [Buffer.toList_replace, hlines]
    simp [← hdone]
  rw [Buffer.take, getElem_of_lines hlines hdone hindex, htaken]
  simp only [hreplace]

/-- No lines are pending at the end of the buffer, and only there. -/
theorem pending_eq_nil_iff (hlines : b.lines.toList = done ++ pending)
    (hdone : done.length = index) : pending = [] ↔ ¬ index < b.lines.size := by
  rw [← Array.length_toList, hlines, List.length_append, hdone, ← List.length_eq_zero_iff]
  omega

/-- Walking through the buffer in place gives what the run over its lines gives. -/
theorem walk_eq_run (hlines : b.lines.toList = done ++ pending) (hdone : done.length = index) :
    run config fs b.state done.reverse pending =
      ((b.walk config fs index).1.state,
        (b.walk config fs index).2.map fun _ => (b.walk config fs index).1.lines.toList) := by
  have hpending := pending_eq_nil_iff hlines hdone
  fun_induction Buffer.walk config fs b index generalizing done pending with
  | case1 b index hindex b' d htake =>
    obtain ⟨line, rest, rfl⟩ := List.exists_cons_of_ne_nil fun h => hpending.mp h hindex
    rw [run_cons_takeLine]
    rcases htaken : takeLine config fs b.state line with ⟨s, d | ⟨l, new⟩⟩
    · rw [take_of_error hlines hdone hindex htaken] at htake
      cases htake
      rfl
    · rw [take_of_ok hlines hdone hindex htaken] at htake
      cases htake
  | case2 b index hindex b' htake ih =>
    obtain ⟨line, rest, rfl⟩ := List.exists_cons_of_ne_nil fun h => hpending.mp h hindex
    rw [run_cons_takeLine]
    rcases htaken : takeLine config fs b.state line with ⟨s, d | ⟨l, new⟩⟩
    · rw [take_of_error hlines hdone hindex htaken] at htake
      cases htake
    · rw [take_of_ok hlines hdone hindex htaken] at htake
      cases htake
      have hsplit : done ++ l :: (new ++ rest) = done ++ [l] ++ (new ++ rest) := by simp
      have hlength : (done ++ [l]).length = index + 1 := by simp [hdone]
      have hwalk := ih hsplit hlength (pending_eq_nil_iff hsplit hlength)
      rwa [List.reverse_append] at hwalk
  | case3 b index hend hgroups =>
    obtain rfl : pending = [] := hpending.mpr hend
    rw [run, hgroups, hlines, List.reverse_reverse, List.append_nil]
    rfl
  | case4 b index hend group groups hgroups =>
    obtain rfl : pending = [] := hpending.mpr hend
    rw [run, hgroups]
    rfl

end Preprocess

namespace Preprocessor

open Preprocess

/-- What a run gives, and what it leaves behind even if it fails. -/
def outcome (r : Preprocessor × Except Diagnostic LogicalText) : Outcome :=
  ⟨r.2, r.1.files, r.1.macros, r.1.log⟩

/-- A run leaves the configuration as it is. -/
theorem config_run (p : Preprocessor) (fs : FileSystem) (path : Path) :
    (p.run fs path).1.config = p.config := by
  unfold run
  dsimp only
  split
  · rfl
  · split <;> rfl

/-- A run of a preprocessor gives what preprocessing the file from nothing gives, whatever was
run before. -/
theorem outcome_run (p : Preprocessor) (fs : FileSystem) (path : Path) :
    outcome (p.run fs path) = preprocess p.config fs path := by
  rw [preprocess, run, show p.reset.buffer.state = State.start p.config from rfl,
    show p.reset.config = p.config from rfl]
  rcases openFile fs (State.start p.config) path with ⟨s, fault | ⟨file, texts⟩⟩
  · rfl
  · have hwalk := @walk_eq_run p.config fs ⟨s, (Line.ofTexts file 0 texts).toArray⟩ 0 []
      (Line.ofTexts file 0 texts) rfl rfl
    dsimp only [List.reverse_nil] at hwalk ⊢
    rw [hwalk]
    rcases Buffer.walk p.config fs _ 0 with ⟨⟨s', lines⟩, d | _⟩
    · rfl
    · rfl

/-- Preprocessing a file from nothing is what a new preprocessor does. -/
theorem preprocess_eq_outcome (config : PreprocessConfig) (fs : FileSystem) (path : Path) :
    preprocess config fs path = outcome ((new config).run fs path) :=
  (outcome_run (new config) fs path).symm

/-- The result of a run is that of preprocessing the file from nothing. -/
theorem result_run {p : Preprocessor} {fs : FileSystem} {path : Path} :
    (preprocess p.config fs path).result = (p.run fs path).2 := by
  rw [← outcome_run]
  rfl

/-- What the runs of one preprocessor on files give, one after the other. -/
def outcomes (p : Preprocessor) : List (FileSystem × Path) → List Outcome
  | [] => []
  | (fs, path) :: rest => outcome (p.run fs path) :: outcomes (p.run fs path).1 rest

/-- Each run gives what a run of a new preprocessor gives. -/
theorem outcomes_eq (p : Preprocessor) (runs : List (FileSystem × Path)) :
    p.outcomes runs = runs.map fun r => outcome ((new p.config).run r.1 r.2) := by
  induction runs generalizing p with
  | nil => rfl
  | cons r rest ih =>
    have hnew : (new p.config).config = p.config := rfl
    rw [outcomes, ih, config_run, List.map_cons, outcome_run, outcome_run, hnew]

/-- Compiling with a preprocessor gives what compiling the file from nothing gives. -/
theorem compile_eq (p : Preprocessor) (fs : FileSystem) (path : Path) :
    p.compile fs path = ((p.run fs path).1, SmallC.compile p.config fs path) := by
  have houtcome := outcome_run p fs path
  rw [compile, SmallC.compile, ← houtcome]
  rcases p.run fs path with ⟨p', d | text⟩ <;> rfl

end Preprocessor

end SmallC
