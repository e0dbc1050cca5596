import SmallC.Proofs.Preprocess.Reuse
import SmallC.Proofs.Preprocess.Step

/-!
# Inclusion as recursion

Preprocessing puts the lines of an included file in front of the lines that are
still to be taken, and each line says by itself which file and depth it comes from.
Here a file is expanded by recursion instead: an active `#include` expands the whole
target, one level deeper, before the next line of the including file is looked at,
and the directory of the including file is known from the recursion. Both give the
same lines, macros, files and faults.
-/

namespace SmallC

namespace Registry

/-- All numbers of one registry mean the same paths in another one. -/
def Extends (r r' : Registry) : Prop := ∀ id p, r.get? id = some p → r'.get? id = some p

/-- A registry extends itself. -/
theorem Extends.refl (r : Registry) : r.Extends r := fun _ _ h => h

/-- Registries extend each other one after the other. -/
theorem Extends.trans {r₁ r₂ r₃ : Registry} (h₁₂ : r₁.Extends r₂) (h₂₃ : r₂.Extends r₃) :
    r₁.Extends r₃ :=
  fun id p h => h₂₃ id p (h₁₂ id p h)

/-- Registering a path leaves the numbers that were given before as they are. -/
theorem extends_register (r : Registry) (p : Path) : r.Extends (r.register p).1 := by
  intro id q h
  unfold register
  split
  · exact h
  · have hlt : id < r.paths.size := (Array.getElem?_eq_some_iff.mp h).1
    simpa [get?, Array.getElem?_push_lt hlt, Array.getElem?_eq_getElem hlt] using h

/-- The number of a registered path has that path, in its first spelling. -/
theorem exists_get?_register (r : Registry) (p : Path) :
    ∃ q, (r.register p).1.get? (r.register p).2 = some q ∧ q.Same p := by
  unfold register
  split
  · rename_i id hid
    obtain ⟨hlt, hsame, -⟩ := Array.findIdx?_eq_some_iff_getElem.mp hid
    exact ⟨r.paths[id], by simp [get?, hlt], of_decide_eq_true hsame⟩
  · exact ⟨p, by simp [get?, size], .refl p⟩

end Registry

namespace Preprocess

/-- The first of the include directories' files of a given path. -/
def searched (config : PreprocessConfig) (fs : FileSystem) (path : Path) : Option Path :=
  (config.includeDirectories.map (·.join path)).find? fs.isFile

/-- The file that a header name means in the file `includer`. A quoted name means the
file beside the includer if there is one, else that in the first include directory
that has one, else the path as it is written; a name in angle brackets is looked up
in the include directories only. -/
def resolve (config : PreprocessConfig) (fs : FileSystem) (includer : Path) :
    Directive.HeaderName → Option Path
  | .quoted path =>
    match (includer.parent?.map (·.join path)).filter fs.isFile, searched config fs path with
    | some beside, _ => some beside
    | none, some found => some found
    | none, none => if fs.isFile path then some path else none
  | .angled path => searched config fs path

/-- The file that the target of an `#include` in the file `includer` means. -/
def included (config : PreprocessConfig) (fs : FileSystem) (includer : Path)
    (target : List Char) : Except DirectiveFault Path :=
  match Directive.headerName target with
  | .error fault => .error fault
  | .ok header =>
    match resolve config fs includer header with
    | none => .error (.includeNotFound header.path)
    | some path => .ok path

/-- The expansion of lines at one depth of a file. The state is shared by all files,
so that macros and groups outlive the file that they are defined or opened in.

What a line does by itself, and how a file is opened, is the same here as in a run. Both are
described apart from either: what a line does to the open groups by `regroups_step`, to the
macros by `define_written`, which path an `#include` looks up by `inclusion_written`, and
which lines an opened file has by `exists_source_of_openFile`. -/
def expand (config : PreprocessConfig) (fs : FileSystem) (includer : Path) (depth : Nat)
    (s : State) (lines : List Line) : State × Except Diagnostic (List Line) :=
  match lines with
  | [] => (s, .ok [])
  | line :: rest =>
    match activeInclusion? s line with
    | none =>
      match step config fs s line with
      | (s, .error fault) => (s, .error (.directive line.location fault))
      | (s, .ok effect) =>
        match expand config fs includer depth s rest with
        | (s, .error d) => (s, .error d)
        | (s, .ok after) => (s, .ok (effect.emitted line :: after))
    | some target =>
      let s := s.including line
      match included config fs includer target with
      | .error fault => (s, .error (.directive line.location fault))
      | .ok path =>
        if _hdepth : depth < config.maxDepth then
          match openFile fs s path with
          | (s, .error fault) => (s, .error (.directive line.location fault))
          | (s, .ok (file, texts)) =>
            let s := s.report .debug s!"include {path.text} ({texts.length} lines)"
            -- a file that was met before goes by the path it was met under first
            let path := (s.files.get? file).getD path
            match expand config fs path (depth + 1) s (Line.ofTexts file (depth + 1) texts) with
            | (s, .error d) => (s, .error d)
            | (s, .ok inside) =>
              match expand config fs includer depth s rest with
              | (s, .error d) => (s, .error d)
              | (s, .ok after) => (s, .ok (line.blank :: inside ++ after))
        else (s, .error (.directive line.location (.includeTooDeep path)))
termination_by (config.maxDepth - depth, lines.length)

/-- The expansion of the file at a path, at the end of which every group has to be
closed. -/
def expandFile (config : PreprocessConfig) (fs : FileSystem) (path : Path) :
    State × Except Diagnostic (List Line) :=
  match openFile fs (State.start config) path with
  | (s, .error fault) => (s, .error (.directive default fault))
  | (s, .ok (file, texts)) =>
    match expand config fs path 0 s (Line.ofTexts file 0 texts) with
    | (s, .error d) => (s, .error d)
    | (s, .ok lines) =>
      match s.conditionals.groups with
      | [] => (s, .ok lines)
      | group :: _ => (s, .error (.directive group.location .missingEndif))

/-- A candidate that is a file is the first of none or one. -/
theorem filter_isFile_eq_find? (fs : FileSystem) (candidate : Option Path) :
    candidate.filter fs.isFile = candidate.toList.find? fs.isFile := by
  cases candidate with
  | none => rfl
  | some path => by_cases h : fs.isFile path <;> simp [Option.filter, h]

/-- Trying the candidates in order finds the file that the header name means. -/
theorem find?_candidates (config : PreprocessConfig) (fs : FileSystem) (includer : Path)
    (header : Directive.HeaderName) :
    (candidates config (some includer) header).find? fs.isFile =
      resolve config fs includer header := by
  cases header with
  | quoted path =>
    simp only [candidates, resolve, searched, List.find?_append, Option.bind_some,
      filter_isFile_eq_find?]
    cases (includer.parent?.map (·.join path)).toList.find? fs.isFile with
    | some beside => rfl
    | none =>
      cases (config.includeDirectories.map (·.join path)).find? fs.isFile with
      | some found => rfl
      | none => by_cases h : fs.isFile path <;> simp [h]
  | angled path => rfl

/-- An active `#include` enters the path that its target resolves to from the file that it stands
in. -/
theorem inclusion_eq (config : PreprocessConfig) (fs : FileSystem) {s : State} {line : Line}
    {includer : Path} (hfile : s.files.get? line.file = some includer) (target : List Char) :
    inclusion config fs s line target = (included config fs includer target).map .enter := by
  simp only [inclusion, included, hfile, find?_candidates]
  cases Directive.headerName target with
  | error fault => rfl
  | ok header =>
    cases h : resolve config fs includer header with
    | none => simp only [h, Except.map]
    | some path => simp only [h, Except.map]

/-- Opening a file registers its path. -/
theorem files_openFile (fs : FileSystem) (s : State) (path : Path) :
    (openFile fs s path).1.files = (s.files.register path).1 := by
  cases hread : fs.read path <;> simp [openFile, hread]

/-- The number of an opened file is the one that its path is registered under. -/
theorem register_of_openFile {fs : FileSystem} {s s' : State} {path : Path} {file : Nat}
    {texts : List String} (h : openFile fs s path = (s', .ok (file, texts))) :
    s.files.register path = (s'.files, file) := by
  cases hread : fs.read path with
  | error fault => simp [openFile, hread] at h
  | ok source =>
    simp only [openFile, hread, Prod.mk.injEq, Except.ok.injEq] at h
    obtain ⟨rfl, rfl, rfl⟩ := h
    rfl

/-- Opening a file, with or without success, only adds to the registry. -/
theorem extends_of_openFile {fs : FileSystem} {s s' : State} {path : Path}
    {r : Except DirectiveFault (Nat × List String)} (h : openFile fs s path = (s', r)) :
    s.files.Extends s'.files := by
  have hfiles := files_openFile fs s path
  rw [h] at hfiles
  exact hfiles ▸ s.files.extends_register path

/-- A line that enters no file only adds to the registry. -/
theorem extends_of_step {config : PreprocessConfig} {fs : FileSystem} {s s' : State}
    {line : Line} {r : Except DirectiveFault Effect} (hline : activeInclusion? s line = none)
    (h : step config fs s line = (s', r)) : s.files.Extends s'.files := by
  have hfiles := (stays_step config fs hline).files
  rw [h] at hfiles
  exact hfiles ▸ .refl _

/-- Expanding lines only adds files. -/
theorem extends_expand (config : PreprocessConfig) (fs : FileSystem) (includer : Path)
    (depth : Nat) (s : State) (lines : List Line) :
    s.files.Extends (expand config fs includer depth s lines).1.files := by
  fun_induction expand config fs includer depth s lines with
  | case1 => exact .refl _
  | case2 _ _ _ _ _ hline _ _ hs => exact extends_of_step hline hs
  | case3 _ _ _ _ _ hline _ _ hs _ _ hlater ih =>
    rw [hlater] at ih
    exact (extends_of_step hline hs).trans ih
  | case4 _ _ _ _ _ hline _ _ hs _ _ hlater ih =>
    rw [hlater] at ih
    exact (extends_of_step hline hs).trans ih
  | case5 => exact .refl _
  | case6 _ _ _ _ _ _ _ _ _ _ _ _ _ hopen =>
    have hfiles := extends_of_openFile hopen
    exact hfiles
  | case7 _ _ _ _ _ _ _ _ _ _ _ _ _ _ hopen _ _ _ _ hinside ihinside =>
    rw [hinside] at ihinside
    exact (extends_of_openFile hopen).trans ihinside
  | case8 _ _ _ _ _ _ _ _ _ _ _ _ _ _ hopen _ _ _ _ hinside _ _ hlater ihinside ihlater =>
    rw [hinside] at ihinside
    rw [hlater] at ihlater
    exact (extends_of_openFile hopen).trans (ihinside.trans ihlater)
  | case9 _ _ _ _ _ _ _ _ _ _ _ _ _ _ hopen _ _ _ _ hinside _ _ hlater ihinside ihlater =>
    rw [hinside] at ihinside
    rw [hlater] at ihlater
    exact (extends_of_openFile hopen).trans (ihinside.trans ihlater)
  | case10 => exact .refl _

/-- The lines are at one depth and come from the file at one path. -/
def AllFrom (files : Registry) (path : Path) (depth : Nat) (lines : List Line) : Prop :=
  ∀ l ∈ lines, l.depth = depth ∧ files.get? l.file = some path

/-- Lines behind the first one still come from their file after more files were met. -/
theorem AllFrom.extends {files files' : Registry} {path : Path} {depth : Nat}
    {line : Line} {lines : List Line} (h : AllFrom files path depth (line :: lines))
    (hfiles : files.Extends files') : AllFrom files' path depth lines := by
  intro l hl
  obtain ⟨hdepth, hpath⟩ := h l (List.mem_cons_of_mem line hl)
  exact ⟨hdepth, hfiles l.file path hpath⟩

/-- The lines of an opened file come from the path it is registered under. -/
theorem allFrom_of_openFile {fs : FileSystem} {s s' : State} {path : Path} {file : Nat}
    {texts : List String} (h : openFile fs s path = (s', .ok (file, texts))) (depth : Nat) :
    AllFrom s'.files ((s'.files.get? file).getD path) depth (Line.ofTexts file depth texts) := by
  intro l hl
  have hfile : l.file = file := Line.file_of_mem_ofTexts hl
  obtain ⟨registered, hregistered, -⟩ := s.files.exists_get?_register path
  rw [register_of_openFile h] at hregistered
  refine ⟨Line.depth_of_mem_ofTexts hl, ?_⟩
  rw [hfile, hregistered]
  rfl

/-- An active `#include` enters what its target resolves to, or fails. -/
theorem step_including {config : PreprocessConfig} {fs : FileSystem} {s : State} {line : Line}
    {includer : Path} {target : List Char} (hline : activeInclusion? s line = some target)
    (hfile : s.files.get? line.file = some includer) :
    step config fs s line =
      (s.including line, (included config fs includer target).map .enter) := by
  rw [step_of_activeInclusion config fs hline, inclusion_eq config fs]
  exact hfile

/-- An active `#include` puts the lines of its file in front of the pending ones. -/
theorem run_cons_of_included {config : PreprocessConfig} {fs : FileSystem} {s : State}
    {line : Line} {includer path : Path} {target : List Char}
    (hline : activeInclusion? s line = some target) (hfile : s.files.get? line.file = some includer)
    (hpath : included config fs includer target = .ok path) (done pending : List Line) :
    run config fs s done (line :: pending) =
      if line.depth < config.maxDepth then
        match openFile fs (s.including line) path with
        | (s, .error fault) => (s, .error (.directive line.location fault))
        | (s, .ok (file, texts)) =>
          run config fs (s.report .debug s!"include {path.text} ({texts.length} lines)")
            (line.blank :: done) (Line.ofTexts file (line.depth + 1) texts ++ pending)
      else (s.including line, .error (.directive line.location (.includeTooDeep path))) := by
  rw [run, step_including hline hfile, hpath]
  rfl

/-- Running through lines of one file is expanding them, and then going on. -/
theorem run_append (config : PreprocessConfig) (fs : FileSystem) (includer : Path)
    (depth : Nat) (s : State) (lines : List Line)
    (hlines : AllFrom s.files includer depth lines) (done rest : List Line) :
    run config fs s done (lines ++ rest) =
      match expand config fs includer depth s lines with
      | (s, .error d) => (s, .error d)
      | (s, .ok out) => run config fs s (out.reverse ++ done) rest := by
  fun_induction expand config fs includer depth s lines generalizing done rest with
  | case1 => rfl
  | case2 _ _ _ _ _ _ _ _ hs => exact run_cons_of_fault hs done _
  | case3 includer depth s line lines hline s' effect hs s'' d hlater ih =>
    have htail := hlines.extends (extends_of_step hline hs)
    rw [List.cons_append, run_cons_of_none hline hs, ih htail, hlater]
  | case4 includer depth s line lines hline s' effect hs s'' out hlater ih =>
    have htail := hlines.extends (extends_of_step hline hs)
    rw [List.cons_append, run_cons_of_none hline hs, ih htail, hlater]
    simp
  | case5 includer depth s line lines target hline s' fault hincluded =>
    have hhead := hlines line List.mem_cons_self
    refine run_cons_of_fault ?_ done _
    rw [step_including hline hhead.2, hincluded]
    rfl
  | case6 includer depth s line lines target hline s₁ path hpath hdepth s₂ fault hopen =>
    obtain ⟨rfl, hfile⟩ := hlines line List.mem_cons_self
    rw [List.cons_append, run_cons_of_included hline hfile hpath, if_pos hdepth, hopen]
  | case7 includer depth s line lines target hline s₁ path hpath hdepth s₂ file texts hopen s₃
      included s₄ d hinside ihinside =>
    obtain ⟨rfl, hfile⟩ := hlines line List.mem_cons_self
    have hrun := ihinside (allFrom_of_openFile hopen _) (line.blank :: done) (lines ++ rest)
    rw [hinside] at hrun
    rw [List.cons_append, run_cons_of_included hline hfile hpath, if_pos hdepth, hopen]
    exact hrun
  | case8 includer depth s line lines target hline s₁ path hpath hdepth s₂ file texts hopen s₃
      included s₄ inside hinside s₅ d hlater ihinside ihlater =>
    obtain ⟨rfl, hfile⟩ := hlines line List.mem_cons_self
    have hrun := ihinside (allFrom_of_openFile hopen _) (line.blank :: done) (lines ++ rest)
    have hfiles := extends_expand config fs included (line.depth + 1) s₃
      (Line.ofTexts file (line.depth + 1) texts)
    rw [hinside] at hrun hfiles
    have htail := hlines.extends ((extends_of_openFile hopen).trans hfiles)
    have hrest := ihlater htail (inside.reverse ++ line.blank :: done) rest
    rw [hlater] at hrest
    rw [List.cons_append, run_cons_of_included hline hfile hpath, if_pos hdepth, hopen]
    exact hrun.trans hrest
  | case9 includer depth s line lines target hline s₁ path hpath hdepth s₂ file texts hopen s₃
      included s₄ inside hinside s₅ out hlater ihinside ihlater =>
    obtain ⟨rfl, hfile⟩ := hlines line List.mem_cons_self
    have hrun := ihinside (allFrom_of_openFile hopen _) (line.blank :: done) (lines ++ rest)
    have hfiles := extends_expand config fs included (line.depth + 1) s₃
      (Line.ofTexts file (line.depth + 1) texts)
    rw [hinside] at hrun hfiles
    have htail := hlines.extends ((extends_of_openFile hopen).trans hfiles)
    have hrest := ihlater htail (inside.reverse ++ line.blank :: done) rest
    rw [hlater] at hrest
    rw [List.cons_append, run_cons_of_included hline hfile hpath, if_pos hdepth, hopen]
    refine hrun.trans (hrest.trans ?_)
    simp
  | case10 includer depth s line lines target hline s₁ path hpath hdepth =>
    obtain ⟨rfl, hfile⟩ := hlines line List.mem_cons_self
    rw [List.cons_append, run_cons_of_included hline hfile hpath, if_neg hdepth]

/-- The first file of all is registered under the path it is opened at. -/
theorem get?_of_openFile_start {config : PreprocessConfig} {fs : FileSystem} {s : State}
    {path : Path} {file : Nat} {texts : List String}
    (h : openFile fs (State.start config) path = (s, .ok (file, texts))) :
    s.files.get? file = some path := by
  have hregister := register_of_openFile h
  rw [State.register_start, Prod.mk.injEq] at hregister
  obtain ⟨hfiles, hfile⟩ := hregister
  rw [← hfiles, ← hfile]
  rfl

/-- A run of a preprocessor on a file is expanding it by recursion, whatever was run before. -/
theorem outcome_eq_expandFile (p : Preprocessor) (fs : FileSystem) (path : Path) :
    Preprocessor.outcome (p.run fs path) = conclude path (expandFile p.config fs path) := by
  rw [Preprocessor.outcome_run]
  unfold preprocess expandFile
  cases hopen : openFile fs (State.start p.config) path with | mk s r => ?_
  cases r with
  | error fault => rfl
  | ok opened =>
    obtain ⟨file, texts⟩ := opened
    have hlines := allFrom_of_openFile hopen 0
    rw [get?_of_openFile_start hopen, Option.getD_some] at hlines
    have hrun := run_append p.config fs path 0 s _ hlines [] []
    rw [List.append_nil] at hrun
    dsimp only
    rw [hrun]
    cases expand p.config fs path 0 s (Line.ofTexts file 0 texts) with | mk s₁ r₁ => ?_
    cases r₁ with
    | error d => rfl
    | ok lines =>
      cases hgroups : s₁.conditionals.groups with
      | nil => simp only [run, hgroups, List.append_nil, List.reverse_reverse]
      | cons group outer => simp only [run, hgroups]

/-- Preprocessing a file is expanding it by recursion: lines, files, macros, records and
faults are the same. -/
theorem preprocess_eq_expandFile (config : PreprocessConfig) (fs : FileSystem) (path : Path) :
    preprocess config fs path = conclude path (expandFile config fs path) := by
  rw [Preprocessor.preprocess_eq_outcome]
  exact outcome_eq_expandFile (.new config) fs path

end Preprocess

end SmallC
