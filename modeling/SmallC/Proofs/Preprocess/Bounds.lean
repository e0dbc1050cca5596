import Mathlib.Algebra.BigOperators.Group.Finset.Piecewise
import Mathlib.Algebra.Order.BigOperators.Group.Finset
import SmallC.Proofs.Preprocess.Moments

/-!
# How long preprocessing can take

The buffer grows while it is being walked through, and files may include each other or
themselves. But each line puts at most one file into the buffer, one deeper than itself, and
no line is deeper than the limit. So the lines of one depth are bounded by those of the depth
before, and a run comes to its end.
-/

namespace SmallC

/-- How many lines there are at a depth. -/
def countAt (depth : Nat) (lines : List Line) : Nat := lines.countP (·.depth = depth)

section

variable {bound depth : Nat} {l : Line} {lines new : List Line}

/-- No lines, none at any depth. -/
theorem countAt_nil (depth : Nat) : countAt depth [] = 0 := rfl

/-- One more line counts at its own depth. -/
theorem countAt_cons (depth : Nat) (l : Line) (lines : List Line) :
    countAt depth (l :: lines) = countAt depth lines + if l.depth = depth then 1 else 0 := by
  rw [countAt, List.countP_cons, countAt]
  simp

/-- Lines one behind the other are counted one after the other. -/
theorem countAt_append (depth : Nat) (lines new : List Line) :
    countAt depth (lines ++ new) = countAt depth lines + countAt depth new :=
  List.countP_append

/-- There are no more lines at a depth than there are lines. -/
theorem countAt_le_length (depth : Nat) (lines : List Line) :
    countAt depth lines ≤ lines.length :=
  List.countP_le_length

/-- Lines of another depth do not count. -/
theorem countAt_of_ne (h : ∀ l ∈ lines, l.depth ≠ depth) : countAt depth lines = 0 :=
  List.countP_eq_zero.mpr fun l hl => by simpa using h l hl

/-- Lines are as many as there are at all depths together. -/
theorem length_eq_sum_countAt (h : ∀ l ∈ lines, l.depth ≤ bound) :
    lines.length = ∑ depth ∈ Finset.range (bound + 1), countAt depth lines := by
  induction lines with
  | nil => simp [countAt]
  | cons l lines ih =>
    obtain ⟨hl, hlines⟩ := List.forall_mem_cons.mp h
    have hdepth : l.depth ∈ Finset.range (bound + 1) := by
      rw [Finset.mem_range]
      omega
    simp only [countAt_cons, Finset.sum_add_distrib, Finset.sum_ite_eq, hdepth, if_true]
    rw [List.length_cons, ih hlines]

end

namespace Preprocess

variable {config : PreprocessConfig} {fs : FileSystem} {path target : Path} {s s' s₁ : State}
  {line l : Line} {done pending rest new : List Line} {file limit : Nat} {texts : List String}
  {r : State × Except Diagnostic (List Line)}

/-! ## The end of a run -/

/-- A moment at which no line is taken any more, and what the run gives there. -/
inductive Ends (config : PreprocessConfig) (fs : FileSystem) :
    State → List Line → List Line → State × Except Diagnostic (List Line) → Prop
  | closed {s : State} {done : List Line} :
    s.conditionals.groups = [] → Ends config fs s done [] (s, .ok done)
  | unclosed {s : State} {done : List Line} {group : ConditionalGroup}
      {outer : List ConditionalGroup} :
    s.conditionals.groups = group :: outer →
    Ends config fs s done [] (s, .error (.directive group.location .missingEndif))
  | fault {s s' : State} {done rest : List Line} {line : Line} {fault : DirectiveFault} :
    step config fs s line = (s', .error fault) →
    Ends config fs s done (line :: rest) (s', .error (.directive line.location fault))
  | tooDeep {s s' : State} {done rest : List Line} {line : Line} {target : Path} :
    step config fs s line = (s', .ok (.enter target)) → config.maxDepth < line.depth + 1 →
    Ends config fs s done (line :: rest)
      (s', .error (.directive line.location (.includeTooDeep target)))
  | unreadable {s s₁ s' : State} {done rest : List Line} {line : Line} {target : Path}
      {fault : DirectiveFault} :
    step config fs s line = (s₁, .ok (.enter target)) → line.depth + 1 ≤ config.maxDepth →
    openFile fs s₁ target = (s', .error fault) →
    Ends config fs s done (line :: rest) (s', .error (.directive line.location fault))

/-- What a run ends with at a moment is what it gives from there. -/
theorem Ends.run_eq (h : Ends config fs s done pending r) :
    run config fs s done.reverse pending = r := by
  cases h with
  | closed hgroups => rw [run, hgroups, List.reverse_reverse]
  | unclosed hgroups => rw [run, hgroups]
  | fault hstep => exact run_cons_of_fault hstep _ _
  | tooDeep hstep hdepth =>
    rw [run, hstep]
    exact dif_neg (by omega)
  | unreadable hstep hdepth hopen =>
    rw [run, hstep]
    simp [Nat.lt_of_succ_le hdepth, hopen]

/-- At each moment the run ends or takes the next line. -/
theorem ends_or_takes (config : PreprocessConfig) (fs : FileSystem) (s : State)
    (done pending : List Line) :
    (∃ r, Ends config fs s done pending r) ∨
      ∃ line rest s' l new, pending = line :: rest ∧ Takes config fs s line s' l new := by
  cases pending with
  | nil =>
    cases hgroups : s.conditionals.groups with
    | nil => exact .inl ⟨_, .closed hgroups⟩
    | cons group outer => exact .inl ⟨_, .unclosed hgroups⟩
  | cons line rest =>
    cases hstep : step config fs s line with | mk s₁ r => ?_
    cases r with
    | error fault => exact .inl ⟨_, .fault hstep⟩
    | ok effect =>
      cases effect with
      | keep => exact .inr ⟨line, rest, s₁, _, _, rfl, takes_of_step hstep (by simp)⟩
      | blank => exact .inr ⟨line, rest, s₁, _, _, rfl, takes_of_step hstep (by simp)⟩
      | enter target =>
        by_cases hdepth : line.depth + 1 ≤ config.maxDepth
        · cases hopen : openFile fs s₁ target with | mk s' opened => ?_
          cases opened with
          | error fault => exact .inl ⟨_, .unreadable hstep hdepth hopen⟩
          | ok opened =>
            obtain ⟨active, hactive⟩ := exists_activeInclusion hstep
            exact .inr ⟨line, rest, _, _, _, rfl, .enters hactive hstep hdepth hopen⟩
        · exact .inl ⟨_, .tooDeep hstep (by omega)⟩

/-! ## The size of the buffer -/

/-- No readable file has more lines than a limit. -/
def FilesWithin (fs : FileSystem) (limit : Nat) : Prop :=
  ∀ p source, fs.read p = .ok source → (lineTexts source).length ≤ limit

/-- An opened file adds no more lines than the limit. -/
theorem FilesWithin.length_of_openFile (hfiles : FilesWithin fs limit)
    (h : openFile fs s path = (s', .ok (file, texts))) (depth : Nat) :
    (Line.ofTexts file depth texts).length ≤ limit := by
  obtain ⟨source, hread, rfl⟩ := exists_source_of_openFile h
  simpa [Line.ofTexts] using hfiles path source hread

/-- A line puts no more lines into the buffer than the limit: those of one file, or none. -/
theorem Takes.length_le (hfiles : FilesWithin fs limit) (h : Takes config fs s line s' l new) :
    new.length ≤ limit := by
  cases h with
  | stays => exact Nat.zero_le limit
  | enters _ _ _ hopen => exact hfiles.length_of_openFile hopen _

/-- The new lines are at the depth behind that of their line. -/
theorem Takes.countAt_le (hfiles : FilesWithin fs limit) (h : Takes config fs s line s' l new)
    (depth : Nat) : countAt depth new ≤ if depth = line.depth + 1 then limit else 0 := by
  split
  · exact (countAt_le_length depth new).trans (h.length_le hfiles)
  · rename_i hdepth
    refine Nat.le_of_eq (countAt_of_ne fun m hm => ?_)
    rw [h.depth_of_mem hm]
    omega

/-- What is true of the lines of all files, with or without their texts, is true of the lines in
the buffer. -/
theorem Reaches.forall_mem {P : Line → Prop} (hshows : ∀ l o, l.Shows o → P o → P l)
    (hopens : ∀ s path s' file texts depth, openFile fs s path = (s', .ok (file, texts)) →
      depth ≤ config.maxDepth → ∀ l ∈ Line.ofTexts file depth texts, P l)
    (h : Reaches config fs path s done pending) : ∀ l ∈ done ++ pending, P l := by
  induction h with
  | start hopen => exact hopens _ _ _ _ _ 0 hopen (Nat.zero_le _)
  | @next s s' done rest new line l _ htakes ih =>
    obtain ⟨hdone, hpending⟩ := List.forall_mem_append.mp ih
    obtain ⟨hline, hrest⟩ := List.forall_mem_cons.mp hpending
    have hnew : ∀ m ∈ new, P m := by
      cases htakes with
      | stays => exact List.forall_mem_nil _
      | enters _ _ hdepth hopen => exact hopens _ _ _ _ _ _ hopen (Nat.succ_le_of_lt hdepth)
    refine List.forall_mem_append.mpr ⟨List.forall_mem_append.mpr ⟨hdone, ?_⟩, ?_⟩
    · exact List.forall_mem_singleton.mpr (hshows l line htakes.shows hline)
    · exact List.forall_mem_append.mpr ⟨hnew, hrest⟩

/-- No line in the buffer is too deep. -/
theorem Reaches.depth_le (h : Reaches config fs path s done pending) :
    ∀ l ∈ done ++ pending, l.depth ≤ config.maxDepth := by
  refine h.forall_mem (fun l o hshows ho => hshows.depth_eq.trans_le ho) ?_
  intro s path s' file texts depth _ hdepth l hl
  rwa [Line.depth_of_mem_ofTexts hl]

/-- No line in the buffer has a number above the limit, so that 32 bits are enough for its number
if they are for the limit. -/
theorem Reaches.number_le (hfiles : FilesWithin fs limit)
    (h : Reaches config fs path s done pending) : ∀ l ∈ done ++ pending, l.number ≤ limit := by
  refine h.forall_mem (fun l o hshows ho => hshows.number_eq.trans_le ho) ?_
  intro s path s' file texts depth hopen _ l hl
  obtain ⟨source, hread, rfl⟩ := exists_source_of_openFile hopen
  exact (Line.number_of_mem_ofTexts hl).2.trans (hfiles path source hread)

/-- The buffer grows by the new lines. -/
theorem Takes.countAt_eq (h : Takes config fs s line s' l new) (depth : Nat)
    (done rest : List Line) : countAt depth (done ++ [l] ++ (new ++ rest)) =
      countAt depth (done ++ line :: rest) + countAt depth new := by
  simp only [countAt_append, countAt_cons, countAt_nil, h.shows.depth_eq]
  omega

/-- The input file alone is at depth zero. -/
theorem Reaches.countAt_zero_le (hfiles : FilesWithin fs limit)
    (h : Reaches config fs path s done pending) : countAt 0 (done ++ pending) ≤ limit := by
  induction h with
  | start hopen =>
    exact (countAt_le_length 0 _).trans (hfiles.length_of_openFile hopen 0)
  | @next s s' done rest new line l _ htakes ih =>
    have hnew := htakes.countAt_le hfiles 0
    rw [if_neg (by omega)] at hnew
    rw [htakes.countAt_eq]
    omega

/-- Each line behind the moment has put at most one file into the buffer, one deeper. -/
theorem Reaches.countAt_succ_le (hfiles : FilesWithin fs limit)
    (h : Reaches config fs path s done pending) (depth : Nat) :
    countAt (depth + 1) (done ++ pending) ≤ limit * countAt depth done := by
  induction h with
  | @start s file texts hopen =>
    have hnone : countAt (depth + 1) (Line.ofTexts file 0 texts) = 0 := by
      refine countAt_of_ne fun l hl => ?_
      rw [Line.depth_of_mem_ofTexts hl]
      omega
    rw [List.nil_append, hnone]
    exact Nat.zero_le _
  | @next s s' done rest new line l _ htakes ih =>
    have hnew := htakes.countAt_le hfiles (depth + 1)
    have hdone : countAt depth (done ++ [l]) =
        countAt depth done + if line.depth = depth then 1 else 0 := by
      rw [countAt_append, countAt_cons, countAt_nil, htakes.shows.depth_eq, Nat.zero_add]
    rw [htakes.countAt_eq, hdone, Nat.mul_add]
    by_cases hline : line.depth = depth
    · rw [if_pos (by omega)] at hnew
      rw [if_pos hline]
      omega
    · rw [if_neg (by omega)] at hnew
      omega

/-- The lines of a depth are bounded by a power of the limit, since those of each depth bound those
of the next. -/
theorem Reaches.countAt_le (hfiles : FilesWithin fs limit)
    (h : Reaches config fs path s done pending) (depth : Nat) :
    countAt depth (done ++ pending) ≤ limit ^ (depth + 1) := by
  induction depth with
  | zero => simpa using h.countAt_zero_le hfiles
  | succ depth ih =>
    calc
      countAt (depth + 1) (done ++ pending) ≤ limit * countAt depth done :=
        h.countAt_succ_le hfiles depth
      _ ≤ limit * countAt depth (done ++ pending) := by
        refine Nat.mul_le_mul_left limit ?_
        rw [countAt_append]
        exact Nat.le_add_right _ _
      _ ≤ limit * limit ^ (depth + 1) := Nat.mul_le_mul_left limit ih
      _ = limit ^ (depth + 1 + 1) := (Nat.pow_succ').symm

/-- How many lines there can be in the buffer, if no file has more lines than a limit and
none is included too deep. -/
def bufferBound (config : PreprocessConfig) (limit : Nat) : Nat :=
  ∑ depth ∈ Finset.range (config.maxDepth + 1), limit ^ (depth + 1)

/-- The lines of all depths are bounded together. -/
theorem Reaches.length_le (hfiles : FilesWithin fs limit)
    (h : Reaches config fs path s done pending) :
    (done ++ pending).length ≤ bufferBound config limit := by
  rw [length_eq_sum_countAt h.depth_le]
  exact Finset.sum_le_sum fun depth _ => h.countAt_le hfiles depth

/-- From each moment the run comes to its end: it takes a line at each step, and there are
not enough lines to go on for ever. -/
theorem Reaches.exists_ends (hfiles : FilesWithin fs limit)
    (h : Reaches config fs path s done pending) :
    ∃ s' done' pending' r, Reaches config fs path s' done' pending' ∧
      Ends config fs s' done' pending' r := by
  induction hleft : bufferBound config limit - done.length generalizing s done pending with
  | zero =>
    have hlength := h.length_le hfiles
    rw [List.length_append] at hlength
    obtain rfl : pending = [] := List.length_eq_zero_iff.mp (by omega)
    rcases ends_or_takes config fs s done [] with ⟨r, hends⟩ | ⟨_, _, _, _, _, hpending, _⟩
    · exact ⟨s, done, [], r, h, hends⟩
    · cases hpending
  | succ left ih =>
    rcases ends_or_takes config fs s done pending with
      ⟨r, hends⟩ | ⟨line, rest, s₁, l, new, rfl, htakes⟩
    · exact ⟨s, done, pending, r, h, hends⟩
    · refine ih (h.next htakes) ?_
      rw [List.length_append, List.length_singleton]
      omega

/-- The run through a file is bounded, by the number of lines that a file can have and by the
depth to which files may be included. -/
structure Bounded (config : PreprocessConfig) (fs : FileSystem) (path : Path) (limit : Nat) :
    Prop where
  /-- At each moment there are not more lines of a depth in the buffer than this. -/
  atDepth : ∀ s done pending, Reaches config fs path s done pending →
    ∀ depth, countAt depth (done ++ pending) ≤ limit ^ (depth + 1)
  /-- At each moment there is no line in the buffer that is deeper than allowed. -/
  depth : ∀ s done pending, Reaches config fs path s done pending →
    ∀ l ∈ done ++ pending, l.depth ≤ config.maxDepth
  /-- At each moment there are not more lines in the buffer than this, and so not more of them
  are ever taken. -/
  length : ∀ s done pending, Reaches config fs path s done pending →
    (done ++ pending).length ≤ bufferBound config limit
  /-- The input file cannot be read, or there is a moment at which the run ends; what it gives
  there is the result. -/
  ends : (∃ s fault, openFile fs (State.start config) path = (s, .error fault) ∧
      preprocess config fs path = conclude path (s, .error (.directive default fault))) ∨
    ∃ s done pending r, Reaches config fs path s done pending ∧ Ends config fs s done pending r ∧
      preprocess config fs path = conclude path r
  /-- An `#include` that goes deeper than allowed is a fault. -/
  tooDeep : ∀ s done line rest s' target, Reaches config fs path s done (line :: rest) →
    step config fs s line = (s', .ok (.enter target)) → config.maxDepth < line.depth + 1 →
    (preprocess config fs path).result =
      .error (.directive line.location (.includeTooDeep target))

/-- Preprocessing comes to an end, even if files include each other or themselves. -/
theorem preprocess_bounded (config : PreprocessConfig) (fs : FileSystem) (path : Path)
    (limit : Nat) (hfiles : FilesWithin fs limit) : Bounded config fs path limit := by
  constructor
  case atDepth => exact fun s done pending h => h.countAt_le hfiles
  case depth => exact fun s done pending h => h.depth_le
  case length => exact fun s done pending h => h.length_le hfiles
  case ends =>
    cases hopen : openFile fs (State.start config) path with | mk s opened => ?_
    cases opened with
    | error fault =>
      refine .inl ⟨s, fault, rfl, ?_⟩
      simp only [preprocess, hopen]
    | ok opened =>
      obtain ⟨s', done, pending, r, hreach, hends⟩ := (Reaches.start hopen).exists_ends hfiles
      refine .inr ⟨s', done, pending, r, hreach, hends, ?_⟩
      rw [hreach.preprocess_eq, hends.run_eq]
  case tooDeep =>
    intro s done line rest s' target hreach hstep hdepth
    rw [hreach.preprocess_eq, (Ends.tooDeep hstep hdepth).run_eq]
    rfl

/-- At each moment of a run of a preprocessor the buffer is bounded in the same way, and so are the
numbers of its lines. -/
theorem bounded_of_passes (p : Preprocessor) (hfiles : FilesWithin fs limit) {b : Preprocess.Buffer}
    {index : Nat} (h : p.Passes fs path b index) :
    (∀ depth, countAt depth b.lines.toList ≤ limit ^ (depth + 1)) ∧
      b.lines.size ≤ bufferBound p.config limit ∧
      ∀ l ∈ b.lines, l.depth ≤ p.config.maxDepth ∧ l.number ≤ limit := by
  obtain ⟨-, hreach⟩ := Preprocessor.passes_iff.mp h
  have hcount := hreach.countAt_le hfiles
  have hlength := hreach.length_le hfiles
  have hdepth := hreach.depth_le
  have hnumber := hreach.number_le hfiles
  rw [List.take_append_drop] at hlength hdepth hnumber
  simp only [List.take_append_drop] at hcount
  refine ⟨hcount, by rwa [Array.length_toList] at hlength, fun l hl => ?_⟩
  exact ⟨hdepth l (Array.mem_toList_iff.mpr hl), hnumber l (Array.mem_toList_iff.mpr hl)⟩

/-- An `#include` that goes deeper than allowed ends the run of a preprocessor with a fault. -/
theorem run_tooDeep (p : Preprocessor) {b : Preprocess.Buffer} {index : Nat} {s' : State}
    (h : p.Passes fs path b index) (hindex : index < b.lines.size)
    (hstep : step p.config fs b.state b.lines[index] = (s', .ok (.enter target)))
    (hdepth : p.config.maxDepth < b.lines[index].depth + 1) :
    (p.run fs path).2 = .error (.directive b.lines[index].location (.includeTooDeep target)) := by
  obtain ⟨-, hreach⟩ := Preprocessor.passes_iff.mp h
  have hpending : b.lines.toList.drop index =
      b.lines[index] :: b.lines.toList.drop (index + 1) :=
    List.drop_eq_getElem_cons (by simpa using hindex)
  rw [hpending] at hreach
  rw [← Preprocessor.result_run, hreach.preprocess_eq, (Ends.tooDeep hstep hdepth).run_eq]
  rfl

/-- A file that includes itself. -/
def selfIncluding : FileSystem := ⟨fun _ => true, fun _ => .ok "#include \"a.c\""⟩

/-- The only line of the file that includes itself. -/
theorem lineTexts_selfIncluding : lineTexts "#include \"a.c\"" = ["#include \"a.c\""] := by
  decide +kernel

/-- The file that includes itself has one line. -/
theorem filesWithin_selfIncluding : FilesWithin selfIncluding 1 := by
  intro p source hread
  obtain rfl := Except.ok.inj hread
  rw [lineTexts_selfIncluding]
  exact Nat.le_refl 1

/-- In the file that includes itself the only line enters it again. -/
theorem step_selfIncluding (hfiles : s.files = ⟨#[⟨"a.c"⟩]⟩) (hlive : s.conditionals.live)
    (depth : Nat) :
    step ⟨[], [], 1⟩ selfIncluding s ⟨"#include \"a.c\"", 0, 1, depth⟩ =
      (s.including ⟨"#include \"a.c\"", 0, 1, depth⟩, .ok (.enter ⟨"a.c"⟩)) := by
  have hline : Directive.ofLine? "#include \"a.c\"".toList = some (.include " \"a.c\"".toList) := by
    decide +kernel
  have hactive : activeInclusion? s ⟨"#include \"a.c\"", 0, 1, depth⟩ =
      some " \"a.c\"".toList := by
    simp only [activeInclusion?, hline, hlive, if_true]
  have hfile : s.files.get? 0 = some ⟨"a.c"⟩ := by
    rw [hfiles]
    rfl
  rw [step_including hactive hfile]
  rfl

/-- Opening the file that includes itself once more gives it the number that it has. -/
theorem openFile_selfIncluding (hfiles : s.files = ⟨#[⟨"a.c"⟩]⟩) :
    openFile selfIncluding s ⟨"a.c"⟩ = (s, .ok (0, ["#include \"a.c\""])) := by
  have hfind : s.files.find? ⟨"a.c"⟩ = some 0 := by
    rw [hfiles]
    decide +kernel
  simp only [openFile, Registry.register, hfind, selfIncluding, lineTexts_selfIncluding]

/-- A file that includes itself is entered once if inclusions may be one deep, and then the
run ends. -/
theorem bounded_selfIncluding :
    FilesWithin selfIncluding 1 ∧ Bounded ⟨[], [], 1⟩ selfIncluding ⟨"a.c"⟩ 1 ∧
      (preprocess ⟨[], [], 1⟩ selfIncluding ⟨"a.c"⟩).result =
        .error (.directive ⟨0, 1, 1⟩ (.includeTooDeep ⟨"a.c"⟩)) := by
  have hbounded := preprocess_bounded ⟨[], [], 1⟩ selfIncluding ⟨"a.c"⟩ 1 filesWithin_selfIncluding
  refine ⟨filesWithin_selfIncluding, hbounded, ?_⟩
  obtain ⟨s, hs⟩ : ∃ s : State, s = ⟨⟨#[⟨"a.c"⟩]⟩, MacroTable.empty, Conditionals.none, #[]⟩ :=
    ⟨_, rfl⟩
  have hfiles : s.files = ⟨#[⟨"a.c"⟩]⟩ := by rw [hs]
  have hlive : s.conditionals.live := by rw [hs]; rfl
  have hstart : openFile selfIncluding (State.start ⟨[], [], 1⟩) ⟨"a.c"⟩ =
      (s, .ok (0, ["#include \"a.c\""])) := by
    simp only [openFile, State.register_start, selfIncluding, lineTexts_selfIncluding, hs]
    rfl
  have hstep := step_selfIncluding hfiles hlive 0
  obtain ⟨target, hactive⟩ := exists_activeInclusion hstep
  have hinside : Reaches ⟨[], [], 1⟩ selfIncluding ⟨"a.c"⟩ _ _
      [⟨"#include \"a.c\"", 0, 1, 1⟩] :=
    (Reaches.start hstart).next (.enters hactive hstep (by decide) (openFile_selfIncluding hfiles))
  refine hbounded.tooDeep _ _ _ _ _ _ hinside (step_selfIncluding ?_ ?_ 1) (by decide)
  · exact hfiles
  · exact hlive

end Preprocess

end SmallC
