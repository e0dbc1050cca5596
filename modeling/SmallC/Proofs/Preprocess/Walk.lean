import SmallC.Proofs.Preprocess.Inclusion

/-!
# Line by line

A run takes the lines of its buffer one after the other. Here it is said what taking one
line does, which moments a run comes to, and what becomes of the lines that are left at a
moment.
-/

namespace SmallC

/-- A text that is read under a spelling of a path. -/
def FileSystem.Holds (fs : FileSystem) (p : Path) (source : String) : Prop :=
  ∃ q, q.Same p ∧ fs.read q = .ok source

namespace Line

/-- A line is another one, perhaps without its text. -/
def Shows (l o : Line) : Prop := l = o ∨ l = o.blank

/-- A line is shown at its depth. -/
theorem Shows.depth_eq {l o : Line} (h : l.Shows o) : l.depth = o.depth := by
  rcases h with rfl | rfl <;> rfl

/-- A line is shown with its number. -/
theorem Shows.number_eq {l o : Line} (h : l.Shows o) : l.number = o.number := by
  rcases h with rfl | rfl <;> rfl

/-- A line has the text that is at its number in its file. -/
def IsFrom (fs : FileSystem) (files : Registry) (l : Line) : Prop :=
  ∃ p source, files.get? l.file = some p ∧ fs.Holds p source ∧ 0 < l.number ∧
    (lineTexts source)[l.number - 1]? = some l.text

/-- A line still comes from its file after more files were met. -/
theorem IsFrom.extends {fs : FileSystem} {files files' : Registry} {l : Line}
    (h : l.IsFrom fs files) (hfiles : files.Extends files') : l.IsFrom fs files' := by
  obtain ⟨p, source, hfile, hsource⟩ := h
  exact ⟨p, source, hfiles l.file p hfile, hsource⟩

end Line

namespace Preprocess

variable {config : PreprocessConfig} {fs : FileSystem} {path : Path} {s s' s₁ : State}
  {line l : Line} {done pending rest new out : List Line} {file : Nat} {texts : List String}
  {text : LogicalText}

/-- What opening a file reads. -/
theorem exists_source_of_openFile (h : openFile fs s path = (s', .ok (file, texts))) :
    ∃ source, fs.read path = .ok source ∧ texts = lineTexts source := by
  simp only [openFile] at h
  split at h
  · cases h
  · rename_i source hread
    cases h
    exact ⟨source, hread, rfl⟩

/-- The lines of a file that was opened come from it. -/
theorem isFrom_of_openFile (h : openFile fs s path = (s', .ok (file, texts))) {depth : Nat}
    (hl : l ∈ Line.ofTexts file depth texts) : l.IsFrom fs s'.files := by
  obtain ⟨source, hread, rfl⟩ := exists_source_of_openFile h
  obtain ⟨p, hp, hsame⟩ := s.files.exists_get?_register path
  rw [register_of_openFile h] at hp
  obtain ⟨⟨text, i⟩, hmem, rfl⟩ := List.mem_map.mp hl
  exact ⟨p, source, hp, ⟨path, hsame.symm, hread⟩, Nat.succ_pos i,
    List.mk_mem_zipIdx_iff_getElem?.mp hmem⟩

/-! ## One line -/

/-- Taking a line leaves a state, a line in its place, and new lines behind that. -/
inductive Takes (config : PreprocessConfig) (fs : FileSystem) :
    State → Line → State → Line → List Line → Prop
  | stays {s s' : State} {line : Line} {effect : Effect} :
    activeInclusion? s line = none → step config fs s line = (s', .ok effect) →
    Takes config fs s line s' (effect.emitted line) []
  | enters {s s₁ s' : State} {line : Line} {target : List Char} {path : Path} {file : Nat}
      {texts : List String} :
    activeInclusion? s line = some target → step config fs s line = (s₁, .ok (.enter path)) →
    line.depth < config.maxDepth → openFile fs s₁ path = (s', .ok (file, texts)) →
    Takes config fs s line (s'.report .debug s!"include {path.text} ({texts.length} lines)")
      line.blank (Line.ofTexts file (line.depth + 1) texts)

/-- What an inclusion does, if it succeeds, is enter a file. -/
theorem exists_path_of_inclusion {target : List Char} {effect : Effect}
    (h : inclusion config fs s line target = .ok effect) : ∃ path, effect = .enter path := by
  simp only [inclusion] at h
  split at h
  · cases h
  · split at h
    · cases h
    · cases h
      exact ⟨_, rfl⟩

/-- An active `#include` that does not fail enters a file. -/
theorem activeInclusion?_eq_none {effect : Effect}
    (hstep : step config fs s line = (s', .ok effect)) (heffect : ∀ path, effect ≠ .enter path) :
    activeInclusion? s line = none := by
  cases hline : activeInclusion? s line with
  | none => rfl
  | some target =>
    rw [step_of_activeInclusion config fs hline] at hstep
    obtain ⟨path, hpath⟩ := exists_path_of_inclusion (Prod.mk.inj hstep).2
    exact absurd hpath (heffect path)

/-- A file is entered by an active `#include` only. -/
theorem exists_activeInclusion (hstep : step config fs s line = (s', .ok (.enter path))) :
    ∃ target, activeInclusion? s line = some target := by
  cases hline : activeInclusion? s line with
  | none =>
    have henter := (stays_step config fs hline).no_enter path
    rw [hstep] at henter
    exact absurd rfl henter
  | some target => exact ⟨target, rfl⟩

/-- The line that stands for a line shows it, with its text or without. -/
theorem shows_emitted (line : Line) (effect : Effect) : (effect.emitted line).Shows line := by
  cases effect with
  | keep => exact .inl rfl
  | blank => exact .inr rfl
  | enter => exact .inr rfl

namespace Takes

/-- The line that is left shows the one that was taken. -/
theorem shows (h : Takes config fs s line s' l new) : l.Shows line := by
  cases h with
  | stays => exact shows_emitted line _
  | enters => exact .inr rfl

/-- The lines that are put in are one deeper. -/
theorem depth_of_mem {m : Line} (h : Takes config fs s line s' l new) (hm : m ∈ new) :
    m.depth = line.depth + 1 := by
  cases h with
  | stays => cases hm
  | enters => exact Line.depth_of_mem_ofTexts hm

/-- Only an active `#include` has new lines. -/
theorem isSome_of_mem {m : Line} (h : Takes config fs s line s' l new) (hm : m ∈ new) :
    (activeInclusion? s line).isSome := by
  cases h with
  | stays => cases hm
  | enters htarget => simp [htarget]

/-- The lines that are put in come from a file that has been met. -/
theorem isFrom {m : Line} (h : Takes config fs s line s' l new) (hm : m ∈ new) :
    m.IsFrom fs s'.files := by
  cases h with
  | stays => cases hm
  | enters _ _ _ hopen =>
    have hfrom := isFrom_of_openFile hopen hm
    exact hfrom

/-- A run goes on with what taking a line leaves. -/
theorem run_cons (h : Takes config fs s line s' l new) (done rest : List Line) :
    run config fs s done (line :: rest) = run config fs s' (l :: done) (new ++ rest) := by
  cases h with
  | stays hline hstep => exact run_cons_of_none hline hstep done rest
  | enters _ hstep hdepth hopen => rw [run, hstep]; simp [hdepth, hopen]

end Takes

/-- Taking a line only adds to the registry. -/
theorem Takes.extends (h : Takes config fs s line s' l new) : s.files.Extends s'.files := by
  cases h with
  | stays hline hstep => exact extends_of_step hline hstep
  | enters hline hstep _ hopen =>
    rw [step_of_activeInclusion config fs hline] at hstep
    obtain ⟨rfl, -⟩ := Prod.mk.inj hstep
    have hfiles := extends_of_openFile hopen
    exact hfiles

/-- A line that enters no file is taken by itself. -/
theorem takes_of_step {effect : Effect} (hstep : step config fs s line = (s', .ok effect))
    (heffect : ∀ path, effect ≠ .enter path) :
    Takes config fs s line s' (effect.emitted line) [] :=
  .stays (activeInclusion?_eq_none hstep heffect) hstep

/-- A live line that is no directive stays. -/
theorem takes_plain (hline : Directive.ofLine? line.text.toList = none)
    (hlive : s.conditionals.live) : Takes config fs s line s line [] := by
  have hstep : step config fs s line = (s, .ok .keep) := by
    rw [step, hline]
    simp [hlive]
  exact takes_of_step hstep (by simp)

/-! ## Moments -/

/-- The run through the file at a path comes to a state, with the lines `done` behind it and
the lines `pending` still to be taken. -/
inductive Reaches (config : PreprocessConfig) (fs : FileSystem) (path : Path) :
    State → List Line → List Line → Prop
  | start {s : State} {file : Nat} {texts : List String} :
    openFile fs (State.start config) path = (s, .ok (file, texts)) →
    Reaches config fs path s [] (Line.ofTexts file 0 texts)
  | next {s s' : State} {done rest new : List Line} {line l : Line} :
    Reaches config fs path s done (line :: rest) → Takes config fs s line s' l new →
    Reaches config fs path s' (done ++ [l]) (new ++ rest)

/-- Taking all pending lines leaves lines and a state in which every group is closed. -/
inductive Yields (config : PreprocessConfig) (fs : FileSystem) :
    State → List Line → List Line → State → Prop
  | nil {s : State} : s.conditionals.groups = [] → Yields config fs s [] [] s
  | cons {s s₁ s' : State} {line l : Line} {rest new out : List Line} :
    Takes config fs s line s₁ l new → Yields config fs s₁ (new ++ rest) out s' →
    Yields config fs s (line :: rest) (l :: out) s'

/-- A run that ends well yields its lines. -/
theorem yields_of_run (h : run config fs s done pending = (s', .ok out)) :
    ∃ after, out = done.reverse ++ after ∧ Yields config fs s pending after s' := by
  fun_induction run config fs s done pending with
  | case1 s done hgroups =>
    cases h
    exact ⟨[], by simp, .nil hgroups⟩
  | case2 => cases h
  | case3 => cases h
  | case4 s done line rest s₁ hstep ih =>
    obtain ⟨after, rfl, hafter⟩ := ih h
    have htakes := takes_of_step hstep (by simp)
    exact ⟨line :: after, by simp, .cons htakes hafter⟩
  | case5 s done line rest s₁ hstep ih =>
    obtain ⟨after, rfl, hafter⟩ := ih h
    have htakes := takes_of_step hstep (by simp)
    exact ⟨line.blank :: after, by simp, .cons htakes hafter⟩
  | case6 => cases h
  | case7 s done line rest s₁ path hstep hdepth s₂ file texts hopen _ ih =>
    obtain ⟨after, rfl, hafter⟩ := ih h
    obtain ⟨target, hline⟩ := exists_activeInclusion hstep
    exact ⟨line.blank :: after, by simp, .cons (.enters hline hstep hdepth hopen) hafter⟩
  | case8 => cases h

/-- The run goes on from each moment that it comes to. -/
theorem Reaches.preprocess_eq (h : Reaches config fs path s done pending) :
    preprocess config fs path = conclude path (run config fs s done.reverse pending) := by
  induction h with
  | start hopen => simp only [preprocess, hopen, List.reverse_nil]
  | next _ htakes ih => rw [ih, htakes.run_cons, List.reverse_append]; rfl

/-- What is returned are the lines behind a moment and those that the others yield. -/
theorem Reaches.exists_yields (h : Reaches config fs path s done pending)
    (hresult : (preprocess config fs path).result = .ok text) :
    ∃ after s', text.lines.toList = done ++ after ∧ text.files = s'.files ∧
      Yields config fs s pending after s' := by
  rw [h.preprocess_eq] at hresult
  cases hrun : run config fs s done.reverse pending with | mk s' r => ?_
  rw [hrun] at hresult
  cases r with
  | error d => cases hresult
  | ok out =>
    obtain ⟨after, rfl, hafter⟩ := yields_of_run hrun
    cases hresult
    exact ⟨after, s', by simp, rfl, hafter⟩

/-- A run that ends well starts with the lines of the file. -/
theorem exists_reaches_start (hresult : (preprocess config fs path).result = .ok text) :
    ∃ s source, fs.read path = .ok source ∧ s.files.get? 0 = some path ∧
      Reaches config fs path s [] (Line.ofTexts 0 0 (lineTexts source)) := by
  unfold preprocess at hresult
  cases hopen : openFile fs (State.start config) path with | mk s r => ?_
  rw [hopen] at hresult
  cases r with
  | error fault => cases hresult
  | ok opened =>
    obtain ⟨file, texts⟩ := opened
    obtain ⟨source, hread, rfl⟩ := exists_source_of_openFile hopen
    have hregister := register_of_openFile hopen
    rw [State.register_start] at hregister
    obtain rfl : 0 = file := (Prod.mk.inj hregister).2
    exact ⟨s, source, hread, get?_of_openFile_start hopen, .start hopen⟩

/-- A file that includes another one. -/
def twoFiles : FileSystem :=
  ⟨fun _ => true, fun p => .ok (if p.text = "a.c" then "#include \"b.h\"\ny" else "x")⟩

/-- Its text after inclusion. -/
def twoFilesText : LogicalText :=
  ⟨#[⟨"", 0, 1, 0⟩, ⟨"x", 1, 1, 1⟩, ⟨"y", 0, 2, 0⟩], ⟨#[⟨"a.c"⟩, ⟨"b.h"⟩]⟩⟩

/-- Two files, one of which includes the other, preprocessed. -/
theorem preprocess_twoFiles :
    (preprocess ⟨[], [], 64⟩ twoFiles ⟨"a.c"⟩).result = .ok twoFilesText := by
  obtain ⟨line, hline⟩ : ∃ line : Line, line = ⟨"#include \"b.h\"", 0, 1, 0⟩ := ⟨_, rfl⟩
  obtain ⟨s, hs⟩ : ∃ s : State, s = ⟨⟨#[⟨"a.c"⟩]⟩, MacroTable.empty, Conditionals.none, #[]⟩ :=
    ⟨_, rfl⟩
  have hopen : openFile twoFiles (State.start ⟨[], [], 64⟩) ⟨"a.c"⟩ =
      (s, .ok (0, [line.text, "y"])) := by
    rw [hs, hline]
    with_unfolding_all rfl
  have hstep : step ⟨[], [], 64⟩ twoFiles s line =
      (s.including line, .ok (.enter ⟨"b.h"⟩)) := by
    rw [hs, hline]
    with_unfolding_all rfl
  have hinside : openFile twoFiles (s.including line) ⟨"b.h"⟩ =
      ({ s.including line with files := ⟨#[⟨"a.c"⟩, ⟨"b.h"⟩]⟩ }, .ok (1, ["x"])) := by
    rw [hs, hline]
    with_unfolding_all rfl
  obtain ⟨target, hactive⟩ := exists_activeInclusion hstep
  subst hline hs
  have henters := (Reaches.start hopen).next (.enters hactive hstep (by decide) hinside)
  have hx := henters.next (takes_plain (by decide +kernel) rfl)
  have hend : Reaches ⟨[], [], 64⟩ twoFiles ⟨"a.c"⟩ _ _ [] :=
    hx.next (takes_plain (by decide +kernel) rfl)
  rw [hend.preprocess_eq, run]
  rfl

/-! ## Where lines come from -/

/-- Taking all lines only adds to the registry. -/
theorem Yields.extends (h : Yields config fs s pending out s') : s.files.Extends s'.files := by
  induction h with
  | nil => exact .refl _
  | cons htakes _ ih => exact htakes.extends.trans ih

/-- What pending lines yield comes from files, if they do. -/
theorem Yields.isFrom (h : Yields config fs s pending out s')
    (hpending : ∀ l ∈ pending, l.IsFrom fs s.files) :
    ∀ l ∈ out, ∃ o, l.Shows o ∧ o.IsFrom fs s'.files := by
  induction h with
  | nil => exact fun l hl => nomatch hl
  | @cons s s₁ s' line l rest new out htakes hafter ih =>
    obtain ⟨hline, hrest⟩ := List.forall_mem_cons.mp hpending
    have hfiles := htakes.extends.trans hafter.extends
    refine List.forall_mem_cons.mpr ⟨⟨line, htakes.shows, hline.extends hfiles⟩, ih ?_⟩
    exact List.forall_mem_append.mpr
      ⟨fun m hm => htakes.isFrom hm, fun m hm => (hrest m hm).extends htakes.extends⟩

/-- At every moment of a run the lines that are left come from files that have been met. -/
theorem Reaches.isFrom (h : Reaches config fs path s done pending) :
    ∀ l ∈ pending, l.IsFrom fs s.files := by
  induction h with
  | start hopen => exact fun l hl => isFrom_of_openFile hopen hl
  | next _ htakes ih =>
    obtain ⟨-, hrest⟩ := List.forall_mem_cons.mp ih
    exact List.forall_mem_append.mpr
      ⟨fun m hm => htakes.isFrom hm, fun m hm => (hrest m hm).extends htakes.extends⟩

/-- Each line of the text comes from its file, perhaps without its text. -/
theorem exists_isFrom (hresult : (preprocess config fs path).result = .ok text) :
    ∀ l ∈ text.lines, ∃ o, l.Shows o ∧ o.IsFrom fs text.files := by
  obtain ⟨s, source, -, -, hstart⟩ := exists_reaches_start hresult
  obtain ⟨out, s', hlines, hfiles, hyields⟩ := hstart.exists_yields hresult
  intro l hl
  rw [← Array.mem_toList_iff, hlines, List.nil_append] at hl
  rw [hfiles]
  exact hyields.isFrom hstart.isFrom l hl

end Preprocess

end SmallC
