import Mathlib.Data.List.Forall2
import SmallC.Proofs.Preprocess.Walk

/-!
# How the lines of included files are laid out

The lines of a file are put behind the `#include` that enters it, in the buffer that is being
walked through. Here it is shown that no line is invented, lost, moved or altered by that: the
input file and each included file are there as a whole, in order, interrupted only by what is
included further.
-/

namespace SmallC

/-- The block at a depth that lines start with: those at the depth, up to the first line
that is less deep. -/
def block (depth : Nat) (lines : List Line) : List Line :=
  (lines.takeWhile (depth ≤ ·.depth)).filter (·.depth = depth)

/-- The `j`-th line is one deeper than the `i`-th, and all lines between them are deeper than
that, too. -/
def InBlock (lines : List Line) (i j : Nat) : Prop :=
  ∃ before owner between l after, lines = before ++ owner :: (between ++ l :: after) ∧
    before.length = i ∧ i + between.length + 1 = j ∧ l.depth = owner.depth + 1 ∧
    ∀ m ∈ between, owner.depth < m.depth

section

variable {depth i i' j : Nat} {l : Line} {lines new rest : List Line}

/-- The block at depth zero is all lines of depth zero. -/
theorem block_zero (lines : List Line) : block 0 lines = lines.filter (·.depth = 0) := by
  have hall : lines.takeWhile (0 ≤ ·.depth) = lines := by
    induction lines with
    | nil => rfl
    | cons l lines ih => rw [List.takeWhile_cons_of_pos (by simp), ih]
  rw [block, hall]

/-- A block ends at a line that is not as deep. -/
theorem block_cons_of_lt (h : l.depth < depth) : block depth (l :: lines) = [] := by
  rw [block, List.takeWhile_cons_of_neg (by simpa using h), List.filter_nil]

/-- Deeper lines are passed over in a block. -/
theorem block_cons_of_gt (h : depth < l.depth) :
    block depth (l :: lines) = block depth lines := by
  rw [block, List.takeWhile_cons_of_pos (by simpa using Nat.le_of_lt h),
    List.filter_cons_of_neg (by simpa using Nat.ne_of_gt h), block]

/-- A line of the depth belongs to its block. -/
theorem block_cons_of_eq (h : l.depth = depth) :
    block depth (l :: lines) = l :: block depth lines := by
  rw [block, List.takeWhile_cons_of_pos (by simp [h]), List.filter_cons_of_pos (by simp [h]),
    block]

/-- Deeper lines do not count. -/
theorem block_append_of_gt (h : ∀ m ∈ new, depth < m.depth) :
    block depth (new ++ rest) = block depth rest := by
  induction new with
  | nil => rfl
  | cons m new ih =>
    obtain ⟨hm, hnew⟩ := List.forall_mem_cons.mp h
    rw [List.cons_append, block_cons_of_gt hm, ih hnew]

/-- A block ends where less deep lines come. -/
theorem block_append_of_eq (h : ∀ m ∈ new, m.depth = depth) (hrest : ∀ m ∈ rest, m.depth < depth) :
    block depth (new ++ rest) = new := by
  induction new with
  | nil =>
    cases rest with
    | nil => rfl
    | cons m rest => exact block_cons_of_lt (hrest m List.mem_cons_self)
  | cons m new ih =>
    obtain ⟨hm, hnew⟩ := List.forall_mem_cons.mp h
    rw [List.cons_append, block_cons_of_eq hm, ih hnew]

/-- A line is in a block of its depth, behind lines that are no less deep. -/
theorem mem_block_append (h : ∀ m ∈ new, l.depth ≤ m.depth) :
    l ∈ block l.depth (new ++ l :: rest) := by
  induction new with
  | nil =>
    rw [List.nil_append, block_cons_of_eq rfl]
    exact List.mem_cons_self
  | cons m new ih =>
    obtain ⟨hm, hnew⟩ := List.forall_mem_cons.mp h
    rcases Nat.lt_or_eq_of_le hm with hlt | heq
    · rw [List.cons_append, block_cons_of_gt hlt]
      exact ih hnew
    · rw [List.cons_append, block_cons_of_eq heq.symm]
      exact List.mem_cons_of_mem m (ih hnew)

/-- The line that the block of a line is behind, and the lines between them. -/
theorem InBlock.exists_owner (h : InBlock lines i j) :
    ∃ owner l, lines[i]? = some owner ∧ i < j ∧ lines[j]? = some l ∧ l.depth = owner.depth + 1 ∧
      l ∈ block l.depth (lines.drop (i + 1)) ∧
      ∀ k m, i < k → k < j → lines[k]? = some m → owner.depth < m.depth := by
  obtain ⟨before, owner, between, l, after, rfl, rfl, rfl, hdepth, hbetween⟩ := h
  refine ⟨owner, l, by simp, by omega, ?_, hdepth, ?_, fun k m hik hkj hm => ?_⟩
  · rw [List.getElem?_append_right (by omega), Nat.add_assoc, Nat.add_sub_cancel_left]
    simp
  · rw [← List.drop_drop, List.drop_left, List.drop_one, List.tail_cons]
    exact mem_block_append fun m hm => hdepth ▸ hbetween m hm
  · obtain ⟨n, rfl⟩ : ∃ n, k = before.length + (n + 1) := ⟨k - before.length - 1, by omega⟩
    rw [List.getElem?_append_right (by omega), Nat.add_sub_cancel_left, List.getElem?_cons_succ,
      List.getElem?_append_left (by omega)] at hm
    exact hbetween m (List.mem_of_getElem? hm)

/-- What is in the block of a line is in the block that is computed behind it. -/
theorem InBlock.mem_block (h : InBlock lines i j) (hl : lines[j]? = some l) :
    l ∈ block l.depth (lines.drop (i + 1)) := by
  obtain ⟨owner, l', -, -, hl', -, hmem, -⟩ := h.exists_owner
  obtain rfl : l = l' := Option.some.inj (hl.symm.trans hl')
  exact hmem

/-- A line is in one block only. -/
theorem InBlock.unique (h : InBlock lines i j) (h' : InBlock lines i' j) : i = i' := by
  obtain ⟨owner, l, hi, hij, hl, hdepth, -, hbetween⟩ := h.exists_owner
  obtain ⟨owner', l', hi', hij', hl', hdepth', -, hbetween'⟩ := h'.exists_owner
  obtain rfl : l = l' := Option.some.inj (hl.symm.trans hl')
  rcases Nat.lt_trichotomy i i' with hlt | heq | hgt
  · have := hbetween i' owner' hlt hij' hi'
    omega
  · exact heq
  · have := hbetween' i owner hgt hij hi
    omega

end

namespace Preprocess

variable {config : PreprocessConfig} {fs : FileSystem} {path : Path} {s s' s₁ : State}
  {line l : Line} {done pending rest new out : List Line} {file : Nat} {texts : List String}
  {text : LogicalText}

/-- A block of what pending lines yield shows the block of the pending lines. -/
theorem Yields.block (h : Yields config fs s pending out s') (depth : Nat) :
    List.Forall₂ Line.Shows (block depth out) (block depth pending) := by
  induction h with
  | nil => exact .nil
  | @cons s s₁ s' line l rest new out htakes _ ih =>
    have hdepth := htakes.shows.depth_eq
    have hnew (hle : depth ≤ line.depth) : ∀ m ∈ new, depth < m.depth := by
      intro m hm
      have := htakes.depth_of_mem hm
      omega
    rcases Nat.lt_trichotomy line.depth depth with hlt | heq | hgt
    · rw [block_cons_of_lt hlt, block_cons_of_lt (hdepth ▸ hlt)]
      exact .nil
    · rw [block_append_of_gt (hnew (Nat.le_of_eq heq.symm))] at ih
      rw [block_cons_of_eq heq, block_cons_of_eq (hdepth.trans heq)]
      exact .cons htakes.shows ih
    · rw [block_append_of_gt (hnew (Nat.le_of_lt hgt))] at ih
      rwa [block_cons_of_gt hgt, block_cons_of_gt (hdepth ▸ hgt)]

/-- The pending lines are those of the files that are open, from the inside to the outside. -/
theorem Reaches.sorted (h : Reaches config fs path s done pending) :
    pending.Pairwise fun l l' => l'.depth ≤ l.depth := by
  induction h with
  | start hopen =>
    refine List.pairwise_of_forall_mem_list fun l hl l' hl' => Nat.le_of_eq ?_
    rw [Line.depth_of_mem_ofTexts hl, Line.depth_of_mem_ofTexts hl']
  | @next s s' done rest new line l _ htakes ih =>
    obtain ⟨hline, hrest⟩ := List.pairwise_cons.mp ih
    refine List.pairwise_append.mpr ⟨?_, hrest, fun m hm m' hm' => ?_⟩
    · refine List.pairwise_of_forall_mem_list fun m hm m' hm' => Nat.le_of_eq ?_
      rw [htakes.depth_of_mem hm, htakes.depth_of_mem hm']
    · have := htakes.depth_of_mem hm
      have := hline m' hm'
      omega

/-- The `i`-th line of the run is an active `#include`. -/
def IncludesAt (config : PreprocessConfig) (fs : FileSystem) (path : Path) (i : Nat) : Prop :=
  ∃ s done line rest, Reaches config fs path s done (line :: rest) ∧ done.length = i ∧
    (activeInclusion? s line).isSome

/-- Behind the `#include` of a pending line there are only lines of its file and of what is
included further. -/
theorem Reaches.exists_owner (h : Reaches config fs path s done pending) :
    ∀ x ∈ pending, 0 < x.depth → ∃ before owner between, done = before ++ owner :: between ∧
      IncludesAt config fs path before.length ∧ x.depth = owner.depth + 1 ∧
      ∀ m ∈ between, owner.depth < m.depth := by
  induction h with
  | start hopen =>
    intro x hx hdepth
    rw [Line.depth_of_mem_ofTexts hx] at hdepth
    exact absurd hdepth (Nat.lt_irrefl 0)
  | @next s s' done rest new line l hreach htakes ih =>
    intro x hx hdepth
    rcases List.mem_append.mp hx with hx | hx
    · exact ⟨done, l, [], rfl, ⟨s, done, line, rest, hreach, rfl, htakes.isSome_of_mem hx⟩,
        htakes.shows.depth_eq ▸ htakes.depth_of_mem hx, fun m hm => nomatch hm⟩
    · obtain ⟨before, owner, between, rfl, hincludes, hx', hbetween⟩ :=
        ih x (List.mem_cons_of_mem line hx) hdepth
      refine ⟨before, owner, between ++ [l], by simp, hincludes, hx', ?_⟩
      -- the line that is taken is at least as deep as those behind it
      have hline := (List.pairwise_cons.mp hreach.sorted).1 x hx
      have hl := htakes.shows.depth_eq
      refine List.forall_mem_append.mpr ⟨hbetween, List.forall_mem_singleton.mpr ?_⟩
      omega

/-- The first line that a run yields shows the first line that it was given. -/
theorem Yields.exists_first {first : Line} (h : Yields config fs s pending out s')
    (hfirst : first ∈ pending.head?) : ∃ l, out.head? = some l ∧ l.Shows first := by
  cases h with
  | nil => cases hfirst
  | cons htakes _ =>
    obtain rfl := Option.some.inj hfirst
    exact ⟨_, rfl, htakes.shows⟩

/-- A list of lines around one of them. -/
theorem eq_take_append_cons {lines : List Line} {i : Nat} (h : lines[i]? = some l) :
    lines = lines.take i ++ l :: lines.drop (i + 1) := by
  obtain ⟨hi, rfl⟩ := List.getElem?_eq_some_iff.mp h
  rw [← List.drop_eq_getElem_cons hi, List.take_append_drop]

/-- There is a moment for each line that pending lines yield. -/
theorem Reaches.exists_taken {before after : List Line}
    (h : Reaches config fs path s done pending)
    (hyields : Yields config fs s pending (before ++ l :: after) s') :
    ∃ s₁ line rest, l.Shows line ∧ Reaches config fs path s₁ (done ++ before) (line :: rest) := by
  induction before generalizing s done pending with
  | nil =>
    cases hyields with
    | @cons _ _ _ line _ rest _ _ htakes _ =>
      exact ⟨s, line, rest, htakes.shows, by simpa using h⟩
  | cons m before ih =>
    cases hyields with
    | cons htakes hafter =>
      obtain ⟨s₁, line, rest, hshows, hreach⟩ := ih (h.next htakes) hafter
      exact ⟨s₁, line, rest, hshows, by simpa using hreach⟩

/-- In the text there is a blank line in the place `i` of an `#include` line, and behind it the
lines of the file that it includes: the first of them at once, and all of them, in order, up
to the next line that is not deeper than the `#include`. -/
def Inserts (config : PreprocessConfig) (fs : FileSystem) (s : State) (line : Line) (i : Nat)
    (text : LogicalText) : Prop :=
  ∃ s₁ target source file registered,
    step config fs s line = (s₁, .ok (.enter target)) ∧ fs.read target = .ok source ∧
    text.files.get? file = some registered ∧ registered.Same target ∧
    text.lines[i]? = some line.blank ∧
    List.Forall₂ Line.Shows (block (line.depth + 1) (text.lines.toList.drop (i + 1)))
      (Line.ofTexts file (line.depth + 1) (lineTexts source)) ∧
    ∀ first ∈ (Line.ofTexts file (line.depth + 1) (lineTexts source)).head?,
      ∃ l, text.lines[i + 1]? = some l ∧ l.Shows first

/-- The lines that an active `#include` puts into the text are one block, behind its own line. -/
theorem Reaches.inserts (h : Reaches config fs path s done (line :: rest))
    (hactive : (activeInclusion? s line).isSome)
    (hresult : (preprocess config fs path).result = .ok text) :
    Inserts config fs s line done.length text := by
  obtain ⟨after, s', hlines, hfiles, hyields⟩ := h.exists_yields hresult
  have hsorted := (List.pairwise_cons.mp h.sorted).1
  cases hyields with
  | @cons _ _ _ _ _ _ new out htakes hafter =>
    cases htakes with
    | stays hinactive hstep => simp [hinactive] at hactive
    | enters htarget hstep hdepth hopen =>
      rename_i s₁ _ _ target file texts
      obtain ⟨source, hread, rfl⟩ := exists_source_of_openFile hopen
      obtain ⟨registered, hregistered, hsame⟩ := s₁.files.exists_get?_register target
      rw [register_of_openFile hopen] at hregistered
      refine ⟨s₁, target, source, file, registered, hstep, hread, ?_, hsame, ?_, ?_, ?_⟩
      · rw [hfiles]
        exact hafter.extends file registered hregistered
      · rw [← Array.getElem?_toList, hlines]
        simp
      · have hblock := hafter.block (line.depth + 1)
        rw [block_append_of_eq (fun m hm => Line.depth_of_mem_ofTexts hm)
          fun m hm => Nat.lt_succ_of_le (hsorted m hm)] at hblock
        rw [hlines, ← List.drop_drop, List.drop_left]
        exact hblock
      · intro first hfirst
        have hhead :
            first ∈ (Line.ofTexts file (line.depth + 1) (lineTexts source) ++ rest).head? := by
          rw [List.head?_append, Option.mem_def.mp hfirst]
          rfl
        obtain ⟨l, hl, hshows⟩ := hafter.exists_first hhead
        refine ⟨l, ?_, hshows⟩
        rw [← Array.getElem?_toList, hlines, List.getElem?_append_right (by omega),
          Nat.add_sub_cancel_left, List.getElem?_cons_succ, ← List.head?_eq_getElem?, hl]

/-- The lines of the text that preprocessing a file gives. -/
structure Laid (config : PreprocessConfig) (fs : FileSystem) (path : Path) (text : LogicalText) :
    Prop where
  /-- Each line is a line of its file, perhaps without its text. -/
  isFrom : ∀ l ∈ text.lines, ∃ o, l.Shows o ∧ o.IsFrom fs text.files
  /-- The lines outside of included files are those of the input file, in order. -/
  input : ∃ source, fs.read path = .ok source ∧ text.files.get? 0 = some path ∧
    List.Forall₂ Line.Shows (text.lines.toList.filter (·.depth = 0))
      (Line.ofTexts 0 0 (lineTexts source))
  /-- Each line of the text was taken at a moment of the run. -/
  taken : ∀ i l, text.lines[i]? = some l → ∃ s line rest, l.Shows line ∧
    Reaches config fs path s (text.lines.toList.take i) (line :: rest)
  /-- If the line that is taken is an active `#include`, then the lines of its target come
  behind it. -/
  included : ∀ s done line rest, Reaches config fs path s done (line :: rest) →
    (activeInclusion? s line).isSome → Inserts config fs s line done.length text
  /-- Each line of an included file is in the block behind exactly one active `#include`. -/
  enclosed : ∀ j l, text.lines[j]? = some l → 0 < l.depth → ∃ i,
    IncludesAt config fs path i ∧ InBlock text.lines.toList i j ∧
      l ∈ block l.depth (text.lines.toList.drop (i + 1)) ∧
      ∀ i', InBlock text.lines.toList i' j → i' = i

/-- A preprocessor neither invents, loses, reorders nor alters lines, whatever was run before. -/
theorem run_laid (p : Preprocessor) (fs : FileSystem) (path : Path) (text : LogicalText)
    (hrun : (p.run fs path).2 = .ok text) : Laid p.config fs path text := by
  have hresult := Preprocessor.result_run.trans hrun
  obtain ⟨s, source, hread, hfile, hstart⟩ := exists_reaches_start hresult
  obtain ⟨out, s', hlines, hfiles, hyields⟩ := hstart.exists_yields hresult
  rw [List.nil_append] at hlines
  subst hlines
  have htaken (i : Nat) (l : Line) (hl : text.lines[i]? = some l) : ∃ s line rest, l.Shows line ∧
      Reaches p.config fs path s (text.lines.toList.take i) (line :: rest) := by
    rw [← Array.getElem?_toList] at hl
    rw [eq_take_append_cons hl] at hyields
    exact hstart.exists_taken hyields
  constructor
  case isFrom => exact exists_isFrom hresult
  case input =>
    refine ⟨source, hread, hfiles ▸ hyields.extends 0 path hfile, ?_⟩
    have hblock := hyields.block 0
    have hall : (Line.ofTexts 0 0 (lineTexts source)).filter (·.depth = 0) =
        Line.ofTexts 0 0 (lineTexts source) := by
      refine List.filter_eq_self.mpr fun l hl => ?_
      rw [Line.depth_of_mem_ofTexts hl]
      rfl
    rwa [block_zero, block_zero, hall] at hblock
  case taken => exact htaken
  case included =>
    exact fun s done line rest hreach hactive => hreach.inserts hactive hresult
  case enclosed =>
    intro j l hl hdepth
    obtain ⟨s, line, rest, hshows, hreach⟩ := htaken j l hl
    obtain ⟨before, owner, between, htake, hincludes, hline, hbetween⟩ :=
      hreach.exists_owner line List.mem_cons_self (hshows.depth_eq ▸ hdepth)
    rw [← Array.getElem?_toList] at hl
    have hlength : (text.lines.toList.take j).length = j := by
      rw [List.length_take]
      exact Nat.min_eq_left (Nat.le_of_lt (List.getElem?_eq_some_iff.mp hl).1)
    rw [htake, List.length_append, List.length_cons] at hlength
    have hinBlock : InBlock text.lines.toList before.length j := by
      refine ⟨before, owner, between, l, text.lines.toList.drop (j + 1), ?_, rfl, hlength,
        hshows.depth_eq.trans hline, hbetween⟩
      rw [← List.cons_append, ← List.append_assoc, ← htake]
      exact eq_take_append_cons hl
    exact ⟨before.length, hincludes, hinBlock, hinBlock.mem_block hl,
      fun i' h' => h'.unique hinBlock⟩

/-- Preprocessing neither invents, loses, reorders nor alters lines. -/
theorem preprocess_laid (config : PreprocessConfig) (fs : FileSystem) (path : Path)
    (text : LogicalText) (hresult : (preprocess config fs path).result = .ok text) :
    Laid config fs path text :=
  run_laid (.new config) fs path text (Preprocessor.result_run.symm.trans hresult)

/-- The line of the included file is in the block of the line before it. -/
theorem laid_twoFiles :
    (preprocess ⟨[], [], 64⟩ twoFiles ⟨"a.c"⟩).result = .ok twoFilesText ∧
      Laid ⟨[], [], 64⟩ twoFiles ⟨"a.c"⟩ twoFilesText :=
  ⟨preprocess_twoFiles, preprocess_laid _ _ _ _ preprocess_twoFiles⟩

end Preprocess

end SmallC
