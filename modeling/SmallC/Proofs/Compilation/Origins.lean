import SmallC.Compilation
import SmallC.Proofs.Preprocess.Reuse
import SmallC.Proofs.Preprocess.Walk
import SmallC.Proofs.Scan.Places
import SmallC.Proofs.Text.Pieces

/-!
# Where tokens come from

The position of a token is in the text after inclusion, in which each line ends with a line
feed. Its line is looked up among the lines of that text, each of which knows its file and
its number there. Here it is shown that the token does stand there, at its column.
-/

namespace SmallC

/-! ## Lines without line feeds -/

namespace Text

/-- Dropping a carriage return adds no characters. -/
theorem mem_of_mem_dropReturn {c : Char} {piece : List Char} (h : c ∈ dropReturn piece) :
    c ∈ piece := by
  unfold dropReturn at h
  split at h
  · rename_i rest hpiece
    rw [← List.mem_reverse, hpiece]
    exact List.mem_cons_of_mem _ (List.mem_reverse.mp h)
  · exact h

/-- A line has only characters of a piece. -/
theorem exists_piece_of_mem_lines {l cs : List Char} (h : l ∈ lines cs) :
    ∃ p ∈ pieces '\n' cs, ∀ c ∈ l, c ∈ p := by
  unfold lines at h
  split at h
  · cases h
  · rename_i last ended hreversed
    have hpieces : pieces '\n' cs = ended.reverse ++ [last] := by
      rw [← List.reverse_reverse (pieces '\n' cs), hreversed, List.reverse_cons]
    have hcomplete (hl : l ∈ ended.reverse.map dropReturn) :
        ∃ p ∈ pieces '\n' cs, ∀ c ∈ l, c ∈ p := by
      obtain ⟨p, hp, rfl⟩ := List.mem_map.mp hl
      exact ⟨p, hpieces ▸ List.mem_append_left [last] hp, fun c hc => mem_of_mem_dropReturn hc⟩
    dsimp only at h
    split at h
    · exact hcomplete h
    · rcases List.mem_append.mp h with hl | hl
      · exact hcomplete hl
      · obtain rfl := List.mem_singleton.mp hl
        exact ⟨l, by simp [hpieces], fun c hc => hc⟩

/-- No line has a line feed. -/
theorem not_mem_of_mem_lines {l cs : List Char} (h : l ∈ lines cs) : '\n' ∉ l := by
  obtain ⟨p, hp, hsubset⟩ := exists_piece_of_mem_lines h
  intro hmem
  exact not_mem_of_mem_piecesFrom (fun q hq => absurd hq List.not_mem_nil) List.not_mem_nil hp
    (hsubset _ hmem)

/-- Each line with a line feed behind it. -/
def ended (lines : List (List Char)) : List Char := lines.flatMap (· ++ ['\n'])

/-- What is behind a line feed is not on its line. -/
theorem takeWhile_append_newline (cs ds : List Char) :
    (cs ++ '\n' :: ds).takeWhile (· ≠ '\n') = cs.takeWhile (· ≠ '\n') :=
  Text.takeWhile_append_cons_of_neg (by simp) cs ds

/-- What has no line feed is one line to its end. -/
theorem takeWhile_of_not_mem {cs : List Char} (h : '\n' ∉ cs) : cs.takeWhile (· ≠ '\n') = cs := by
  have hcs (c : Char) (hc : c ∈ cs) : decide (c ≠ '\n') = true :=
    decide_eq_true fun heq => h (heq ▸ hc)
  have happend : (cs ++ []).takeWhile (· ≠ '\n') = cs ++ [].takeWhile (· ≠ '\n') :=
    List.takeWhile_append_of_pos hcs
  simpa using happend

/-- The line in which a text is cut in two. -/
theorem getElem?_of_ended {lines : List (List Char)} {before after : List Char}
    (hlines : ∀ l ∈ lines, '\n' ∉ l) (h : ended lines = before ++ after) (hafter : after ≠ []) :
    lines[before.count '\n']? =
      some ((before.reverse.takeWhile (· ≠ '\n')).reverse ++ after.takeWhile (· ≠ '\n')) := by
  induction lines generalizing before with
  | nil => exact absurd (List.append_eq_nil_iff.mp h.symm).2 hafter
  | cons l lines ih =>
    obtain ⟨hl, hlines⟩ := List.forall_mem_cons.mp hlines
    have hinside (more : List Char) (hmore : l = before ++ more)
        (hrest : after = more ++ '\n' :: ended lines) : (l :: lines)[before.count '\n']? =
          some ((before.reverse.takeWhile (· ≠ '\n')).reverse ++ after.takeWhile (· ≠ '\n')) := by
      rw [hmore, List.mem_append, not_or] at hl
      rw [List.count_eq_zero_of_not_mem hl.1, hrest, takeWhile_append_newline,
        takeWhile_of_not_mem hl.2, takeWhile_of_not_mem (by simpa using hl.1), List.reverse_reverse,
        hmore]
      rfl
    have hcut : l ++ '\n' :: ended lines = before ++ after := by
      rw [← h]
      simp [ended]
    rcases List.append_eq_append_iff.mp hcut with ⟨more, hbefore, hrest⟩ | ⟨more, hmore, hrest⟩
    · cases more with
      | nil => exact hinside [] (by simpa using hbefore.symm) (by simpa using hrest.symm)
      | cons c more =>
        obtain ⟨rfl, htail⟩ := List.cons.inj hrest
        rw [hbefore, List.count_append, List.count_eq_zero_of_not_mem hl, Nat.zero_add,
          List.count_cons_self, List.getElem?_cons_succ, ih hlines htail, List.reverse_append,
          List.reverse_cons, List.append_assoc, List.singleton_append, takeWhile_append_newline]
    · exact hinside more hmore hrest

end Text

/-! ## The place of a token -/

/-- The characters that spell a token. -/
def Token.spelling (t : Token) : List Char :=
  if t.kind = .string then '"' :: t.lexeme.toList ++ ['"'] else t.lexeme.toList

namespace Segment

variable {cs : List Char} {c : Char} {t : Token} {position : Position}

/-- The first segment of a text that is a token is spelled at the start of the text, and does
not start with a line feed. -/
theorem exists_spelling_of_first (h : (first c cs).piece.token? position = some t) :
    ∃ more after, t.spelling = c :: more ∧ c :: cs = t.spelling ++ after ∧ c ≠ '\n' ∧
      t.position = position := by
  obtain ⟨hne, after, hafter⟩ := starts_first c cs
  have hcontributes := contributes_first c cs
  have hc : c ≠ '\n' := by
    rintro rfl
    cases h
  cases hpiece : (first c cs).piece with
  | gap =>
    rw [hpiece] at h
    cases h
  | fault fault =>
    rw [hpiece] at h
    cases h
  | token kind lexeme literal =>
    rw [hpiece] at h
    cases h
    have htext : (first c cs).text =
        (⟨kind, String.ofList lexeme, literal, position⟩ : Token).spelling := by
      simpa [Contributes, hpiece, Token.spelling] using hcontributes
    rw [htext] at hne hafter
    obtain ⟨d, more, hmore⟩ := List.exists_cons_of_ne_nil hne
    obtain rfl : d = c := by
      rw [hmore] at hafter
      exact (List.cons.inj hafter).1
    exact ⟨more, after, hmore, hafter.symm, hc, rfl⟩

end Segment

/-! ## Origins -/

/-- The `i`-th token of a text is `t`, and stands between `before` and `after`. -/
structure StandsBetween (source : List Char) (i : Nat) (t : Token) (before after : List Char) :
    Prop where
  text : source = before ++ (t.spelling ++ after)
  segment : ∃ earlier s later, Segment.all source = earlier ++ s :: later ∧
    (Segment.tokensBehind [] earlier).length = i ∧ s.piece.token? t.position = some t ∧
    before = earlier.flatMap (·.text)

/-- A line has a spelling at a column, as far as the line goes. -/
def HasAt (line : String) (column : Nat) (spelling : List Char) : Prop :=
  0 < column ∧ ∃ rest, line.toList.drop (column - 1) = rest ∧ rest ≠ [] ∧
    (spelling <+: rest ∨ ∃ more, spelling = rest ++ '\n' :: more)

/-- The text of some lines is each of them with a line feed behind it. -/
theorem LogicalText.toList_text (t : LogicalText) :
    t.text.toList = Text.ended (t.lines.toList.map (·.text.toList)) := by
  have hfoldl (lines : List Line) (out : String) :
      (lines.foldl (fun out line => (out ++ line.text).push '\n') out).toList =
        out.toList ++ Text.ended (lines.map (·.text.toList)) := by
    induction lines generalizing out with
    | nil => simp [Text.ended]
    | cons line lines ih =>
      rw [List.foldl_cons, ih]
      simp [Text.ended]
  rw [text, ← Array.foldl_toList, hfoldl]
  rfl

/-- A line that comes from a file has no line feed, as the file was cut there. -/
theorem Line.IsFrom.not_mem {fs : FileSystem} {files : Registry} {l : Line}
    (h : l.IsFrom fs files) : '\n' ∉ l.text.toList := by
  obtain ⟨p, source, -, -, -, hl⟩ := h
  obtain ⟨cs, hcs, htext⟩ := List.mem_map.mp (List.mem_of_getElem? hl)
  rw [← htext, String.toList_ofList]
  exact Text.not_mem_of_mem_lines hcs

variable {config : PreprocessConfig} {fs : FileSystem} {path : Path} {text : LogicalText}
  {c : Compilation} {t : Token} {before after : List Char} {i : Nat}

/-- None of the lines after inclusion has a line feed, so that cutting their text gives them
back. -/
theorem not_mem_of_preprocess (hresult : (preprocess config fs path).result = .ok text) :
    ∀ cs ∈ text.lines.toList.map (·.text.toList), '\n' ∉ cs := by
  intro cs hcs
  obtain ⟨l, hl, rfl⟩ := List.mem_map.mp hcs
  obtain ⟨o, rfl | rfl, ho⟩ := Preprocess.exists_isFrom hresult l (Array.mem_toList_iff.mp hl)
  · exact ho.not_mem
  · simp [Line.blank]

/-- What was compiled is the text after inclusion, and its tokens. -/
theorem tokens_of_compile (hresult : (compile config fs path).result = .ok c) :
    (preprocess config fs path).result = .ok c.text ∧
      c.tokens = Segment.tokensBehind [] (Segment.all c.text.text.toList) := by
  unfold compile at hresult
  cases htext : (preprocess config fs path).result with
  | error d =>
    simp only [htext] at hresult
    cases hresult
  | ok text =>
    simp only [htext, Compilation.ofLines, Scan.result] at hresult
    split at hresult
    · cases hresult
    · rename_i tokens hscan
      split at hscan
      · cases hscan
        cases hresult
        exact ⟨rfl, Scan.tokens_ofText _⟩
      · cases hscan

/-- A token has its place. -/
theorem exists_standsBetween {source : List Char}
    (ht : (Segment.tokensBehind [] (Segment.all source))[i]? = some t) :
    ∃ before after, StandsBetween source i t before after ∧ t.position = .behind before ∧
      ∃ d more, t.spelling = d :: more ∧ d ≠ '\n' := by
  obtain ⟨earlier, s, later, hall, hlength, htoken⟩ := Segment.exists_segment_of_tokensBehind ht
  obtain ⟨d, rest, rfl, hsource⟩ := Segment.exists_first_of_all hall
  obtain ⟨more, after, hmore, hspelling, hd, hposition⟩ :=
    Segment.exists_spelling_of_first htoken
  rw [List.nil_append] at hposition
  exact ⟨earlier.flatMap (·.text), after, ⟨hspelling ▸ hsource, earlier, _, later, hall, hlength,
    hposition ▸ htoken, rfl⟩, hposition, d, more, hmore, hd⟩

/-- A spelling goes on to the end of its line at most. -/
theorem prefix_or_exists_eq (spelling after : List Char) :
    spelling <+: (spelling ++ after).takeWhile (· ≠ '\n') ∨
      ∃ more, spelling = (spelling ++ after).takeWhile (· ≠ '\n') ++ '\n' :: more := by
  induction spelling with
  | nil => exact .inl List.nil_prefix
  | cons d spelling ih =>
    by_cases hd : d = '\n'
    · exact .inr ⟨spelling, by simp [hd]⟩
    · rw [List.cons_append, List.takeWhile_cons_of_pos (by simp [hd])]
      rcases ih with hprefix | ⟨more, hmore⟩
      · exact .inl (List.cons_prefix_cons.mpr ⟨rfl, hprefix⟩)
      · exact .inr ⟨more, by rw [List.cons_append, ← hmore]⟩

/-- The line of the text after inclusion on which a token stands. -/
theorem exists_line_of_standsBetween (hresult : (preprocess config fs path).result = .ok text)
    (h : StandsBetween text.text.toList i t before after)
    {d : Char} {more : List Char} (hspelling : t.spelling = d :: more) (hd : d ≠ '\n') :
    ∃ l, text.lines[before.count '\n']? = some l ∧ l.IsFrom fs text.files ∧
      HasAt l.text ((before.reverse.takeWhile (· ≠ '\n')).length + 1) t.spelling := by
  have hended := text.toList_text.symm.trans h.text
  have hline := Text.getElem?_of_ended (not_mem_of_preprocess hresult) hended (by simp [hspelling])
  rw [List.getElem?_map] at hline
  obtain ⟨l, hl, htext⟩ := Option.map_eq_some_iff.mp hline
  rw [Array.getElem?_toList] at hl
  have hrest : (t.spelling ++ after).takeWhile (· ≠ '\n') ≠ [] := by
    rw [hspelling, List.cons_append, List.takeWhile_cons_of_pos (by simp [hd])]
    exact List.cons_ne_nil _ _
  obtain ⟨o, rfl | rfl, ho⟩ := Preprocess.exists_isFrom hresult l (Array.mem_of_getElem? hl)
  · refine ⟨l, hl, ho, Nat.succ_pos _, _, ?_, hrest, prefix_or_exists_eq t.spelling after⟩
    rw [Nat.add_sub_cancel, htext, ← List.length_reverse, List.drop_left]
  · -- a blank line has no tokens
    exact absurd (List.append_eq_nil_iff.mp htext.symm).2 hrest

/-- The origin of a position is that of the line of its number. -/
theorem origin?_eq {n : Nat} {l : Line} (hn : t.position.line.toNat = n + 1)
    (hl : c.text.lines[n]? = some l) :
    c.origin? t.position = some (c.text.files.describe l.location) := by
  simp [Compilation.origin?, LogicalText.origin?, hn, hl]

/-- The location of a line of a file is described by the path of the file and the number that the
line has there. -/
theorem Line.IsFrom.exists_describe {files : Registry} {l : Line} (h : l.IsFrom fs files) :
    ∃ p ∈ files.paths, ∃ source, fs.Holds p source ∧ 0 < l.number ∧
      (lineTexts source)[l.number - 1]? = some l.text ∧
      files.describe l.location = s!"{p.text}:{l.number}" := by
  obtain ⟨p, source, hp, hsource, hnumber, hl⟩ := h
  refine ⟨p, Array.mem_of_getElem? hp, source, hsource, hnumber, hl, ?_⟩
  simp only [Registry.describe, Line.location, hp]

/-- The origin that a preprocessor gives for a token is where it stands: on the line of the file
that is named, at the column of the token. What the preprocessor was used for before does not
matter. -/
theorem Preprocessor.origins_of_compile (p : Preprocessor)
    (hresult : (p.compile fs path).2.result = .ok c) (ht : c.tokens[i]? = some t) :
    ∃ before after, StandsBetween c.text.text.toList i t before after ∧
      (t.position.line.toNat < 65535 → t.position.column.toNat < 65535 →
        ∃ p ∈ c.text.files.paths, ∃ source n line, c.origin? t.position = some s!"{p.text}:{n}" ∧
          fs.Holds p source ∧ 0 < n ∧ (lineTexts source)[n - 1]? = some line ∧
          HasAt line t.position.column.toNat t.spelling) ∧
      (65535 < before.count '\n' + 1 → ∃ l, c.text.lines[65534]? = some l ∧
        c.origin? t.position = some (c.text.files.describe l.location)) := by
  rw [p.compile_eq] at hresult
  obtain ⟨htext, htokens⟩ := tokens_of_compile hresult
  rw [htokens] at ht
  obtain ⟨before, after, hstands, hposition, d, more, hspelling, hd⟩ := exists_standsBetween ht
  obtain ⟨l, hl, hfrom, hat⟩ := exists_line_of_standsBetween htext hstands hspelling hd
  have hline : t.position.line.toNat = min (before.count '\n' + 1) 65535 := by
    rw [hposition]
    exact Position.toNat_clamp _
  have hcolumn : t.position.column.toNat =
      min ((before.reverse.takeWhile (· ≠ '\n')).length + 1) 65535 := by
    rw [hposition]
    exact Position.toNat_clamp _
  refine ⟨before, after, hstands, fun hline' hcolumn' => ?_, fun hfar => ?_⟩
  · obtain ⟨p, hp, source, hsource, hnumber, htext, hdescribe⟩ := hfrom.exists_describe
    refine ⟨p, hp, source, l.number, l.text, ?_, hsource, hnumber, htext, ?_⟩
    · rw [← hdescribe]
      exact origin?_eq (by omega) hl
    · rw [hcolumn, Nat.min_eq_left (by omega)]
      exact hat
  · have hlt := (Array.getElem?_eq_some_iff.mp hl).1
    have hfirst : 65534 < c.text.lines.size := by omega
    exact ⟨_, Array.getElem?_eq_getElem hfirst,
      origin?_eq (by omega) (Array.getElem?_eq_getElem hfirst)⟩

/-- The origin of a token is where it stands: on the line of the file that is named, at the
column of the token. Lines that are too far to be counted are taken for line 65535. -/
theorem compile_origins (config : PreprocessConfig) (fs : FileSystem) (path : Path)
    (c : Compilation) (hresult : (compile config fs path).result = .ok c) (i : Nat) (t : Token)
    (ht : c.tokens[i]? = some t) :
    ∃ before after, StandsBetween c.text.text.toList i t before after ∧
      (t.position.line.toNat < 65535 → t.position.column.toNat < 65535 →
        ∃ p ∈ c.text.files.paths, ∃ source n line, c.origin? t.position = some s!"{p.text}:{n}" ∧
          fs.Holds p source ∧ 0 < n ∧ (lineTexts source)[n - 1]? = some line ∧
          HasAt line t.position.column.toNat t.spelling) ∧
      (65535 < before.count '\n' + 1 → ∃ l, c.text.lines[65534]? = some l ∧
        c.origin? t.position = some (c.text.files.describe l.location)) := by
  have hcompile : ((Preprocessor.new config).compile fs path).2.result = .ok c := by
    rw [Preprocessor.compile_eq]
    exact hresult
  exact Preprocessor.origins_of_compile _ hcompile ht

/-- The tokens of a file that includes another one. -/
def twoFilesTokens : List Token :=
  [⟨.identifier, "x", none, ⟨2, 1⟩⟩, ⟨.identifier, "y", none, ⟨3, 1⟩⟩]

/-- Two files that are compiled as one, with the tokens of both. -/
theorem compile_twoFiles :
    (compile ⟨[], [], 64⟩ Preprocess.twoFiles ⟨"a.c"⟩).result =
      .ok ⟨Preprocess.twoFilesText, twoFilesTokens, .ofTokens twoFilesTokens⟩ := by
  have htext : Preprocess.twoFilesText.text = "\nx\ny\n" := by decide +kernel
  have hall : Segment.all "\nx\ny\n".toList =
      [⟨['\n'], .gap⟩, .whole .identifier none ['x'], ⟨['\n'], .gap⟩,
        .whole .identifier none ['y'], ⟨['\n'], .gap⟩] := by decide +kernel
  have hscan : (Scan.ofText "\nx\ny\n").result "\nx\ny\n" = .ok twoFilesTokens := by
    rw [Scan.ofText, hall]
    rfl
  simp only [compile, Preprocess.preprocess_twoFiles, Compilation.ofLines, htext, hscan]

/-- The second token is on the third line of the text, which is the second one of its file. -/
theorem origin_twoFiles :
    let c : Compilation := ⟨Preprocess.twoFilesText, twoFilesTokens, .ofTokens twoFilesTokens⟩
    (compile ⟨[], [], 64⟩ Preprocess.twoFiles ⟨"a.c"⟩).result = .ok c ∧
      c.tokens[1]? = some ⟨.identifier, "y", none, ⟨3, 1⟩⟩ ∧
      c.origin? ⟨3, 1⟩ = some "a.c:2" ∧
      ∃ p ∈ c.text.files.paths, ∃ source n line, c.origin? ⟨3, 1⟩ = some s!"{p.text}:{n}" ∧
        Preprocess.twoFiles.Holds p source ∧ 0 < n ∧ (lineTexts source)[n - 1]? = some line ∧
        HasAt line 1 ['y'] := by
  intro c
  have hspelling : (⟨.identifier, "y", none, ⟨3, 1⟩⟩ : Token).spelling = ['y'] := by
    decide +kernel
  obtain ⟨before, after, -, horigin, -⟩ := compile_origins _ _ _ c compile_twoFiles 1 _ rfl
  rw [hspelling] at horigin
  exact ⟨compile_twoFiles, rfl, by decide +kernel, horigin (by decide) (by decide)⟩

end SmallC
