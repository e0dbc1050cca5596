import SmallC.Proofs.Compilation.Origins
import SmallC.Proofs.Preprocess.Conditional
import SmallC.Proofs.Preprocess.Layout
import SmallC.Proofs.Preprocess.Reuse

/-!
# Texts that stay as they are

Every directive line becomes blank, unless its directive is unknown. So nothing is left in the
text after inclusion that a preprocessor acts on: if it is stored as a file, any preprocessor
keeps all of its lines, and gives the text back.
-/

namespace SmallC

/-! ## Lines with line feeds behind them -/

namespace Text

/-- The characters of a line are those of the text. -/
theorem mem_of_mem_lines {l cs : List Char} {c : Char} (hl : l ∈ lines cs) (hc : c ∈ l) :
    c ∈ cs := by
  obtain ⟨p, hp, hsubset⟩ := exists_piece_of_mem_lines hl
  rcases mem_of_mem_piecesFrom hp (hsubset c hc) with ⟨q, hq, -⟩ | hnil | hcs
  · cases hq
  · cases hnil
  · exact hcs

/-- Cut at its line feeds, a text of whole lines gives the lines, and an empty piece. -/
theorem piecesFrom_ended {ls : List (List Char)} (hls : ∀ l ∈ ls, '\n' ∉ l)
    (done : List (List Char)) :
    piecesFrom '\n' done [] (ended ls) = done.reverse ++ ls ++ [[]] := by
  induction ls generalizing done with
  | nil => simp [ended, piecesFrom]
  | cons l ls ih =>
    obtain ⟨hl, hls⟩ := List.forall_mem_cons.mp hls
    have hcut : ended (l :: ls) = l ++ '\n' :: ended ls := by simp [ended]
    rw [hcut, piecesFrom_append_separator hl, ih hls, List.reverse_nil, List.nil_append,
      List.reverse_cons, List.append_assoc done.reverse, List.singleton_append]

/-- Nothing is dropped where there is no carriage return. -/
theorem dropReturn_of_not_mem {piece : List Char} (h : '\r' ∉ piece) :
    dropReturn piece = piece := by
  unfold dropReturn
  split
  · rename_i rest hpiece
    refine absurd (List.mem_reverse.mp ?_) h
    rw [hpiece]
    exact List.mem_cons_self
  · rfl

/-- Nothing is lost when lines without line ends are joined and cut again. -/
theorem lines_ended {ls : List (List Char)} (hfeed : ∀ l ∈ ls, '\n' ∉ l)
    (hreturn : ∀ l ∈ ls, '\r' ∉ l) : lines (ended ls) = ls := by
  have hreversed : (pieces '\n' (ended ls)).reverse = [] :: ls.reverse := by
    rw [pieces, piecesFrom_ended hfeed]
    simp
  rw [lines, hreversed]
  simp only [List.isEmpty_nil, if_true, List.reverse_reverse]
  exact (List.map_congr_left fun l hl => dropReturn_of_not_mem (hreturn l hl)).trans
    (List.map_id' ls)

end Text

namespace Line

/-- The texts of the lines of a file are those that it was made of. -/
theorem text_of_ofTexts (file depth : Nat) (texts : List String) :
    (ofTexts file depth texts).map (·.text) = texts := by
  rw [ofTexts, List.map_map]
  exact List.zipIdx_map_fst 0 texts

/-- Whether a line stays depends on nothing but its text. -/
theorem isKept_congr {l o : Line} (h : l.text = o.text) : l.isKept = o.isKept := by
  simp only [isKept, directive?, h]

/-- A blank line is kept. -/
theorem isKept_blank (l : Line) : l.blank.isKept = true := rfl

end Line

namespace LogicalText

/-- The text after inclusion has the lines after inclusion. -/
theorem lineTexts_text (t : LogicalText) (hfeed : ∀ l ∈ t.lines, '\n' ∉ l.text.toList)
    (hreturn : ∀ l ∈ t.lines, '\r' ∉ l.text.toList) :
    lineTexts t.text = t.lines.toList.map (·.text) := by
  have hall {c : Char} (h : ∀ l ∈ t.lines, c ∉ l.text.toList) :
      ∀ cs ∈ t.lines.toList.map (·.text.toList), c ∉ cs := by
    intro cs hcs
    obtain ⟨l, hl, rfl⟩ := List.mem_map.mp hcs
    exact h l (Array.mem_toList_iff.mp hl)
  rw [lineTexts, t.toList_text, Text.lines_ended (hall hfeed) (hall hreturn), List.map_map]
  simp only [Function.comp_def, String.ofList_toList]

/-- The lines of a text as those of a file that includes no other. -/
def asFile (t : LogicalText) (path : Path) : LogicalText :=
  ⟨(Line.ofTexts 0 0 (t.lines.toList.map (·.text))).toArray, ⟨#[path]⟩⟩

/-- Taking a text for a file of its own does not change it. -/
theorem text_asFile (t : LogicalText) (path : Path) : (t.asFile path).text = t.text := by
  have htexts (u : LogicalText) : u.lines.toList.map (·.text.toList) =
      (u.lines.toList.map (·.text)).map String.toList := by
    rw [List.map_map]
    rfl
  apply String.toList_inj.mp
  rw [toList_text, toList_text, htexts, htexts t, asFile, Line.text_of_ofTexts]

/-- All lines of a text that is taken for a file are at depth zero. -/
theorem depth_of_mem_asFile {t : LogicalText} {path : Path} {l : Line}
    (hl : l ∈ (t.asFile path).lines) : l.depth = 0 :=
  Line.depth_of_mem_ofTexts (List.mem_toArray.mp hl)

end LogicalText

namespace Preprocess

variable {config : PreprocessConfig} {fs : FileSystem} {path : Path} {s s' : State}
  {line l : Line} {done pending new out : List Line} {text : LogicalText}

/-! ## What is left in a text -/

/-- A definition is never kept in the text. -/
theorem define_ne_keep (s : State) (line : Line) (arguments : List DirectiveToken.Placed) :
    (define s line arguments).2 ≠ .ok .keep := by
  unfold define
  split <;> simp

/-- An `#undef` is never kept in the text. -/
theorem undef_ne_keep (s : State) (arguments : List DirectiveToken.Placed) :
    (undef s arguments).2 ≠ .ok .keep := by
  unfold undef
  split <;> simp

/-- An inclusion is never kept in the text. -/
theorem inclusion_ne_keep (config : PreprocessConfig) (fs : FileSystem) (s : State) (line : Line)
    (target : List Char) : inclusion config fs s line target ≠ .ok .keep := by
  intro h
  obtain ⟨path, hpath⟩ := exists_path_of_inclusion h
  cases hpath

/-- A line that opens a group is never kept in the text. -/
theorem openGroup_ne_keep (s : State) (line : Line) (taken : Unit → Except DirectiveFault Bool) :
    (openGroup s line taken).2 ≠ .ok .keep := by
  unfold openGroup
  split
  · split <;> simp
  · simp

/-- An `#elif` is never kept in the text. -/
theorem elif_ne_keep (s : State) (arguments : List DirectiveToken.Placed) :
    (elif s arguments).2 ≠ .ok .keep := by
  unfold elif
  split
  · simp
  · split
    · simp
    · split
      · simp
      · split <;> simp

/-- An `#else` is never kept in the text. -/
theorem otherwise_ne_keep (s : State) : (otherwise s).2 ≠ .ok .keep := by
  unfold otherwise
  split
  · simp
  · split <;> simp

/-- An `#endif` is never kept in the text. -/
theorem endif_ne_keep (s : State) : (endif s).2 ≠ .ok .keep := by
  unfold endif
  split <;> simp

/-- Only an unknown directive stays. -/
theorem exists_unknown_of_keep {d : Directive}
    (h : (directive config fs s line d).2 = .ok .keep) : ∃ name, d = .unknown name := by
  have hblank : (Except.ok Effect.blank : Except DirectiveFault Effect) ≠ .ok .keep := by simp
  cases d with
  | unknown name => exact ⟨name, rfl⟩
  | empty => exact absurd h hblank
  | define arguments =>
    simp only [directive] at h
    split at h
    · exact absurd h (define_ne_keep s line arguments)
    · exact absurd h hblank
  | undef arguments =>
    simp only [directive] at h
    split at h
    · exact absurd h (undef_ne_keep s arguments)
    · exact absurd h hblank
  | «include» target =>
    simp only [directive] at h
    split at h
    · exact absurd h (inclusion_ne_keep config fs s line target)
    · exact absurd h hblank
  | ifdef arguments => exact absurd h (openGroup_ne_keep s line _)
  | ifndef arguments => exact absurd h (openGroup_ne_keep s line _)
  | «if» arguments => exact absurd h (openGroup_ne_keep s line _)
  | elif arguments => exact absurd h (elif_ne_keep s arguments)
  | «else» => exact absurd h (otherwise_ne_keep s)
  | endif => exact absurd h (endif_ne_keep s)

/-- A line that a run keeps as it is is no directive, or an unknown one. -/
theorem isKept_of_step (h : step config fs s line = (s', .ok .keep)) : line.isKept = true := by
  cases hl : line.directive? with
  | none => simp only [Line.isKept, hl]
  | some d =>
    obtain ⟨log, hstep⟩ := exists_step_eq hl s.log
    have hkeep := congrArg Prod.snd (hstep.symm.trans h)
    obtain ⟨name, rfl⟩ := exists_unknown_of_keep hkeep
    simp only [Line.isKept, hl]

/-- Whatever a line leaves in its place is kept when it is taken again. -/
theorem Takes.isKept (h : Takes config fs s line s' l new) : l.isKept = true := by
  cases h with
  | stays hinactive hstep =>
    rename_i effect
    cases effect with
    | keep => exact isKept_of_step hstep
    | blank | enter => exact line.isKept_blank
  | enters => exact line.isKept_blank

/-- What is left of lines would stay once more. -/
theorem Yields.isKept (h : Yields config fs s pending out s') : ∀ l ∈ out, l.isKept = true := by
  induction h with
  | nil => exact fun l hl => nomatch hl
  | cons htakes _ ih => exact List.forall_mem_cons.mpr ⟨htakes.isKept, ih⟩

/-- All lines after preprocessing are kept when they are taken again. -/
theorem isKept_of_preprocess (hresult : (preprocess config fs path).result = .ok text) :
    ∀ l ∈ text.lines, l.isKept = true := by
  obtain ⟨s, source, -, -, hstart⟩ := exists_reaches_start hresult
  obtain ⟨out, s', hlines, -, hyields⟩ := hstart.exists_yields hresult
  intro l hl
  rw [← Array.mem_toList_iff, hlines, List.nil_append] at hl
  exact hyields.isKept l hl

/-! ## Carriage returns -/

/-- The run through the file at a path reads this file, and those that are included. -/
inductive Reads (config : PreprocessConfig) (fs : FileSystem) (path : Path) : Path → Prop
  | input : Reads config fs path path
  | included {s s₁ : State} {done rest : List Line} {line : Line} {target : Path} :
    Reaches config fs path s done (line :: rest) →
    step config fs s line = (s₁, .ok (.enter target)) → Reads config fs path target

/-- The lines of a file without carriage returns have none either. -/
theorem not_mem_of_mem_ofTexts {source : String} (h : '\r' ∉ source.toList) {file depth : Nat}
    (hl : l ∈ Line.ofTexts file depth (lineTexts source)) : '\r' ∉ l.text.toList := by
  have htext : l.text ∈ lineTexts source := by
    rw [← Line.text_of_ofTexts file depth (lineTexts source)]
    exact List.mem_map_of_mem hl
  obtain ⟨cs, hcs, hofList⟩ := List.mem_map.mp htext
  rw [← hofList, String.toList_ofList]
  exact fun hmem => h (Text.mem_of_mem_lines hcs hmem)

/-- No pending line has a carriage return if no file has one. -/
theorem Reaches.not_mem (h : Reaches config fs path s done pending)
    (hreturn : ∀ p source, Reads config fs path p → fs.read p = .ok source → '\r' ∉ source.toList) :
    ∀ l ∈ pending, '\r' ∉ l.text.toList := by
  induction h with
  | start hopen =>
    obtain ⟨source, hread, rfl⟩ := exists_source_of_openFile hopen
    exact fun l hl => not_mem_of_mem_ofTexts (hreturn path source .input hread) hl
  | next hreach htakes ih =>
    obtain ⟨-, hrest⟩ := List.forall_mem_cons.mp ih
    refine List.forall_mem_append.mpr ⟨fun m hm => ?_, hrest⟩
    cases htakes with
    | stays => cases hm
    | enters _ hstep _ hopen =>
      obtain ⟨source, hread, rfl⟩ := exists_source_of_openFile hopen
      exact not_mem_of_mem_ofTexts (hreturn _ source (.included hreach hstep) hread) hm

/-- No line after inclusion has a carriage return if no file has one. -/
theorem not_mem_return_of_preprocess (hresult : (preprocess config fs path).result = .ok text)
    (hreturn : ∀ p source, Reads config fs path p → fs.read p = .ok source → '\r' ∉ source.toList) :
    ∀ l ∈ text.lines, '\r' ∉ l.text.toList := by
  intro l hl
  obtain ⟨s, source, -, -, hstart⟩ := exists_reaches_start hresult
  obtain ⟨out, s', hlines, -, hyields⟩ := hstart.exists_yields hresult
  rw [← Array.mem_toList_iff, hlines, List.nil_append] at hl
  obtain ⟨before, after, rfl⟩ := List.append_of_mem hl
  obtain ⟨s₁, line, rest, hshows, hreach⟩ := hstart.exists_taken hyields
  rcases hshows with rfl | rfl
  · exact hreach.not_mem hreturn l List.mem_cons_self
  · simp [Line.blank]

/-! ## Running once more -/

/-- Lines that are kept are followed without any change, and all of them count. -/
theorem follows_kept (config : PreprocessConfig) (fs : FileSystem) (files : Registry)
    (m : MacroTable) {c : Conditionals} (hkept : ∀ l ∈ pending, l.isKept = true)
    (hlive : c.live = true) :
    Follows config fs files m c pending c (.ok (m, pending.map (⟨·, true⟩))) := by
  induction pending generalizing m with
  | nil => exact follows_nil
  | cons l pending ih =>
    obtain ⟨hl, hpending⟩ := List.forall_mem_cons.mp hkept
    exact (follows_kept_of_live hl hlive).andThen fun m' => ih m' hpending

/-- A file all of whose lines stay is left as it is, and defines nothing. -/
theorem preprocess_of_isKept (config : PreprocessConfig) {fs : FileSystem} {path : Path}
    {source : String} (hread : fs.read path = .ok source)
    (hkept : ∀ l ∈ Line.ofTexts 0 0 (lineTexts source), l.isKept = true) :
    (preprocess config fs path).result =
        .ok ⟨(Line.ofTexts 0 0 (lineTexts source)).toArray, ⟨#[path]⟩⟩ ∧
      (preprocess config fs path).macros = (State.start config).macros := by
  have hemitted : ((Line.ofTexts 0 0 (lineTexts source)).map (⟨·, true⟩)).map Mark.emitted =
      Line.ofTexts 0 0 (lineTexts source) := by
    rw [List.map_map]
    refine (List.map_congr_left fun l hl => ?_).trans (List.map_id' _)
    simp [Mark.emitted, hkept l hl]
  have hlive : (opened []).live = true := rfl
  obtain ⟨log, hlog⟩ :=
    follows_kept config fs ⟨#[path]⟩ (State.start config).macros hkept hlive #[]
  have hrun := hlog [] []
  rw [List.append_nil, List.append_nil, hemitted, run] at hrun
  rw [preprocess_eq_run config hread, hrun]
  simp only [opened, List.reverse_reverse]
  exact ⟨rfl, rfl⟩

/-- What is left of a file is kept as it is when it is stored as a file itself. -/
theorem preprocess_asFile (config' : PreprocessConfig) {fs' : FileSystem} {path' : Path}
    (hresult : (preprocess config fs path).result = .ok text)
    (hreturn : ∀ p source, Reads config fs path p → fs.read p = .ok source → '\r' ∉ source.toList)
    (hread : fs'.read path' = .ok text.text) :
    (preprocess config' fs' path').result = .ok (text.asFile path') ∧
      (preprocess config' fs' path').macros = (State.start config').macros := by
  have hfeed : ∀ l ∈ text.lines, '\n' ∉ l.text.toList := fun l hl =>
    not_mem_of_preprocess hresult _ (List.mem_map_of_mem (Array.mem_toList_iff.mpr hl))
  have htexts := text.lineTexts_text hfeed (not_mem_return_of_preprocess hresult hreturn)
  have hkept : ∀ l ∈ Line.ofTexts 0 0 (lineTexts text.text), l.isKept = true := by
    intro l hl
    have htext : l.text ∈ text.lines.toList.map (·.text) := by
      rw [← htexts, ← Line.text_of_ofTexts 0 0 (lineTexts text.text)]
      exact List.mem_map_of_mem hl
    obtain ⟨o, ho, heq⟩ := List.mem_map.mp htext
    rw [← Line.isKept_congr heq]
    exact isKept_of_preprocess hresult o (Array.mem_toList_iff.mp ho)
  have hsecond := preprocess_of_isKept config' hread hkept
  rwa [htexts] at hsecond

end Preprocess

namespace Preprocessor

open Preprocess

/-- The text after inclusion is a fixed point: stored as a file, it is given back by any
preprocessor, whose macros are then those that it defines from the start. -/
theorem run_text_of_run (p q : Preprocessor) (fs fs' : FileSystem) (path path' : Path)
    (text : LogicalText) (hresult : (p.run fs path).2 = .ok text)
    (hreturn : ∀ r source, Reads p.config fs path r → fs.read r = .ok source →
      '\r' ∉ source.toList)
    (hread : fs'.read path' = .ok text.text) :
    ∃ again, (q.run fs' path').2 = .ok again ∧ again.text = text.text ∧
      (∀ l ∈ again.lines, l.depth = 0) ∧
      (q.run fs' path').1.macros = (State.start q.config).macros := by
  have hfirst : (preprocess p.config fs path).result = .ok text := by
    rw [← outcome_run]
    exact hresult
  obtain ⟨hsecond, hmacros⟩ := preprocess_asFile q.config hfirst hreturn hread
  rw [← outcome_run] at hsecond hmacros
  exact ⟨text.asFile path', hsecond, text.text_asFile path',
    fun _ hl => LogicalText.depth_of_mem_asFile hl, hmacros⟩

/-- The text of a file that includes another one, read by a preprocessor that could not include
any file. -/
theorem run_text_twoFiles :
    let p := new ⟨[], [], 64⟩
    let q := new ⟨[], [("M", none)], 0⟩
    let fs' : FileSystem := ⟨fun _ => true, fun _ => .ok twoFilesText.text⟩
    (p.run twoFiles ⟨"a.c"⟩).2 = .ok twoFilesText ∧
      ∃ again, (q.run fs' ⟨"a.i"⟩).2 = .ok again ∧ again.text = "\nx\ny\n" ∧
        (∀ l ∈ again.lines, l.depth = 0) ∧
        (q.run fs' ⟨"a.i"⟩).1.macros = ⟨[⟨"M", none, "1", default, true⟩]⟩ := by
  intro p q fs'
  have hresult : (p.run twoFiles ⟨"a.c"⟩).2 = .ok twoFilesText := by
    have houtcome := congrArg Outcome.result (outcome_run p twoFiles ⟨"a.c"⟩)
    exact houtcome.trans preprocess_twoFiles
  refine ⟨hresult, run_text_of_run p q twoFiles fs' ⟨"a.c"⟩ ⟨"a.i"⟩ twoFilesText hresult ?_ rfl⟩
  intro r source _ hread
  obtain rfl := Except.ok.inj hread
  split <;> decide +kernel

end Preprocessor

end SmallC
