import SmallC.FileTree
import SmallC.Proofs.Text.Pieces

/-!
# Writing files

A file that was written is found again under the path by which it was written. Writing another
file changes nothing about it, for no directory is taken away by that: what a path led to
before, it leads to afterwards.
-/

namespace SmallC

namespace FileTree

variable {t t' : FileTree} {p q : Path} {names other start : List String} {content : ByteArray}
  {entry : FileEntry} {cs : List Char}

/-- A path leads to a file with some content. -/
structure Stores (t : FileTree) (p : Path) (names : List String) (content : ByteArray) :
    Prop where
  locate : t.locate p = .ok names
  entry : t.entry? names = some (.file content)

/-- What was set is found at its place. -/
theorem entry?_set_self (hne : names ≠ []) :
    FileTree.entry? (t.set names entry) names = some entry := by
  unfold entry? set
  simp [hne]

/-- What was set changes nothing at other places. -/
theorem entry?_set_of_ne (hne : other ≠ names) :
    FileTree.entry? (t.set names entry) other = t.entry? other := by
  unfold entry? set
  split
  · rfl
  · have hother (e : List String × FileEntry) : (e.1 ≠ names ∧ e.1 = other) ↔ e.1 = other :=
      ⟨And.right, fun h => ⟨h ▸ hne, h⟩⟩
    rw [List.find?_cons_of_neg (by simpa using hne.symm), List.find?_filter]
    simp [hother]

/-- A new file is in no one's way. -/
theorem walk_set {pieces : List (List Char)} (hfile : t.entry? names ≠ some .directory)
    (h : t.walk start pieces = .ok other) :
    (t.set names (.file content)).walk start pieces = .ok other := by
  induction pieces generalizing start with
  | nil => exact h
  | cons piece pieces ih =>
    rw [walk] at h ⊢
    split at h
    · cases h
    · cases h
    · rename_i hstart
      have hne : start ≠ names := fun heq => hfile (heq ▸ hstart)
      rw [entry?_set_of_ne hne, hstart]
      exact ih h

/-- A place is reached in the same way after a file was set somewhere, where no directory was. -/
theorem locate_set (hfile : t.entry? names ≠ some .directory) (h : t.locate p = .ok other) :
    (t.set names (.file content)).locate p = .ok other := by
  unfold locate locateText at h ⊢
  split at h
  · cases h
  · exact walk_set hfile h
  · exact walk_set hfile h

/-- A file that was written is at the place of its path, where there was no directory, and nothing
else has changed. -/
theorem exists_of_write (h : t.write p content = .ok t') :
    ∃ names, t.locate p = .ok names ∧ t.entry? names ≠ some .directory ∧
      t' = t.set names (.file content) := by
  unfold write at h
  split at h
  · cases h
  · rename_i names hlocate
    split at h
    · cases h
    · rename_i hentry
      exact ⟨names, hlocate, hentry, (Except.ok.inj h).symm⟩

/-- What was written is there. -/
theorem exists_stores_of_write (h : t.write p content = .ok t') :
    ∃ names, t'.Stores p names content := by
  obtain ⟨names, hlocate, hfile, rfl⟩ := exists_of_write h
  have hne : names ≠ [] := by
    rintro rfl
    exact hfile rfl
  exact ⟨names, locate_set hfile hlocate, entry?_set_self hne⟩

/-- What is there stays as it is if something else is written. -/
theorem Stores.write {content' : ByteArray} (hstores : t.Stores p names content)
    (h : t.write q content' = .ok t') (hne : t.locate q ≠ .ok names) :
    t'.Stores p names content := by
  obtain ⟨other, hlocate, hfile, rfl⟩ := exists_of_write h
  have hnames : names ≠ other := fun heq => hne (heq ▸ hlocate)
  exact ⟨locate_set hfile hstores.locate, (entry?_set_of_ne hnames).trans hstores.entry⟩

/-- A text that is stored in UTF-8 is read back. -/
theorem Stores.read {text : String} (hstores : t.Stores p names text.toUTF8) :
    t.read p = .ok text := by
  have htext : String.fromUTF8? text.toUTF8 = some text := dif_pos text.isValidUTF8
  rw [FileTree.read, find, hstores.locate]
  simp only [hstores.entry, htext]

/-! ## The names of files -/

/-- A name that stands for itself as the last piece of a path. -/
structure IsFileName (name : String) : Prop where
  noSlash : '/' ∉ name.toList
  nonempty : name.toList ≠ []
  notCurrent : name.toList ≠ ['.']
  notUp : name.toList ≠ ['.', '.']

/-- Every name of more than two characters without a slash can name a file: the names that mean a
directory are shorter. -/
theorem isFileName_of_length {name : String} (hslash : '/' ∉ name.toList)
    (hlength : 2 < name.toList.length) : IsFileName name where
  noSlash := hslash
  nonempty h := by simp [h] at hlength
  notCurrent h := by simp [h] at hlength
  notUp h := by simp [h] at hlength

/-- A walk that ends with the name of a file comes to a place of that name. -/
theorem getLast?_of_walk {name : String} (hname : IsFileName name) {pieces : List (List Char)}
    (h : t.walk start (pieces ++ [name.toList]) = .ok names) : names.getLast? = some name := by
  induction pieces generalizing start with
  | nil =>
    rw [List.nil_append, walk] at h
    split at h
    · cases h
    · cases h
    · rw [walk, follow, if_neg (not_or.mpr ⟨hname.nonempty, hname.notCurrent⟩),
        if_neg hname.notUp, String.ofList_toList] at h
      rw [← Except.ok.inj h, List.getLast?_concat]
  | cons piece pieces ih =>
    rw [List.cons_append, walk] at h
    split at h
    · cases h
    · cases h
    · exact ih h

/-- A path that ends in a name leads to something of that name. -/
theorem getLast?_of_locateText {name : String} (hname : IsFileName name)
    (h : t.locateText (cs ++ '/' :: name.toList) = .ok names) : names.getLast? = some name := by
  unfold locateText at h
  split at h
  · rename_i hnil
    exact absurd hnil (by simp)
  · rename_i cs' hcs
    cases cs with
    | nil =>
      obtain ⟨-, rfl⟩ := List.cons.inj hcs
      rw [Text.pieces, Text.piecesFrom_of_not_mem hname.noSlash] at h
      exact getLast?_of_walk hname h
    | cons c cs =>
      rw [List.cons_append, List.cons.injEq] at hcs
      obtain ⟨-, rfl⟩ := hcs
      rw [Text.pieces, Text.piecesFrom_append_last hname.noSlash] at h
      exact getLast?_of_walk hname h
  · rw [Text.pieces, Text.piecesFrom_append_last hname.noSlash] at h
    exact getLast?_of_walk hname h

/-- A path that is the name of a file leads to a place of that name. -/
theorem getLast?_of_locateText_name {name : String} (hname : IsFileName name)
    (h : t.locateText name.toList = .ok names) : names.getLast? = some name := by
  unfold locateText at h
  split at h
  · rename_i hnil
    exact absurd hnil hname.nonempty
  · rename_i cs hcs
    exact absurd (hcs ▸ List.mem_cons_self) hname.noSlash
  · rw [Text.pieces, Text.piecesFrom_of_not_mem hname.noSlash] at h
    exact getLast?_of_walk hname h

/-- A name seen from a directory leads to something of that name. -/
theorem getLast?_of_locate_join {name : String} (hname : IsFileName name) {directory : Path}
    (h : t.locate (directory.join ⟨name⟩) = .ok names) : names.getLast? = some name := by
  have hrelative : (Path.mk name).isAbsolute = false := by
    rw [Path.isAbsolute, decide_eq_false_iff_not]
    exact fun hhead => hname.noSlash (List.mem_of_mem_head? hhead)
  rw [locate, Path.join, hrelative, if_neg Bool.false_ne_true] at h
  split at h
  · rename_i hdirectory
    rw [String.toList_append] at h
    rcases hdirectory with hempty | hslash
    · rw [hempty] at h
      exact getLast?_of_locateText_name hname h
    · obtain ⟨cs, hcs⟩ := List.getLast?_eq_some_iff.mp hslash
      rw [hcs, List.append_assoc] at h
      exact getLast?_of_locateText hname h
  · rw [String.toList_append, String.toList_append, List.append_assoc] at h
    exact getLast?_of_locateText hname h

end FileTree

namespace Path

/-- The parts of a path are what stands between its slashes. -/
theorem not_mem_of_mem_parts {q : Path} {piece : List Char} (h : piece ∈ q.parts.2) :
    '/' ∉ piece := by
  have hpieces {cs : List Char} (hpiece : piece ∈ Text.pieces '/' cs) : '/' ∉ piece :=
    Text.not_mem_of_mem_piecesFrom (fun _ hdone => absurd hdone List.not_mem_nil)
      List.not_mem_nil hpiece
  unfold parts at h
  split at h
  · exact hpieces h
  · cases h
  · exact hpieces h
  · exact hpieces h

/-- A component of a path has no slash in it. -/
theorem not_mem_of_name_mem_components {q : Path} {cs : List Char}
    (h : .name cs ∈ q.components) : '/' ∉ cs := by
  rcases List.mem_append.mp h with hstart | hpieces
  · split at hstart <;> simp at hstart
  · obtain ⟨piece, hpiece, hname⟩ := List.mem_filterMap.mp hpieces
    unfold Component.ofPiece? at hname
    split at hname
    · cases hname
    split at hname
    · cases hname
    · cases hname
      exact not_mem_of_mem_parts hpiece

/-- The stem of a path is a part of one of its names. -/
theorem not_mem_stem {q : Path} {stem : String} (h : q.stem? = some stem) :
    '/' ∉ stem.toList := by
  unfold stem? at h
  split at h
  · rename_i cs hlast
    have hcs : '/' ∉ cs := not_mem_of_name_mem_components (List.mem_of_getLast? hlast)
    obtain rfl := Option.some.inj h
    rw [String.toList_ofList]
    split
    · exact hcs
    · intro hmem
      have hdropped := List.mem_of_mem_drop (List.mem_reverse.mp hmem)
      exact hcs (List.mem_reverse.mp ((List.dropWhile_suffix _).subset hdropped))
  · cases h

end Path

end SmallC
