import SmallC.Proofs.Preprocess.Reuse
import SmallC.Proofs.Preprocess.Walk

/-!
# Moments of a buffer

A preprocessor walks through its buffer with an index and changes the lines in their places. The
moments that it comes to are those of a run over lists of lines: what is before the index was
taken, and what is behind it is still to be taken. So whatever is shown of the moments of such a
run is true of the buffer.
-/

namespace SmallC

namespace Preprocess

variable {config : PreprocessConfig} {fs : FileSystem} {s s' : State} {line l : Line}
  {new : List Line} {b b' : Buffer} {index : Nat}

/-- A line that is taken as described is taken so. -/
theorem takeLine_of_takes (h : Takes config fs s line s' l new) :
    takeLine config fs s line = (s', .ok (l, new)) := by
  cases h with
  | stays hline hstep =>
    rename_i effect
    rw [takeLine, hstep]
    cases effect with
    | keep => rfl
    | blank => rfl
    | enter path =>
      have henter := (stays_step config fs hline).no_enter path
      rw [hstep] at henter
      exact absurd rfl henter
  | enters hline hstep hdepth hopen => rw [takeLine, hstep]; simp [hdepth, hopen]

/-- Whatever taking a line gives is described. -/
theorem takes_of_takeLine (h : takeLine config fs s line = (s', .ok (l, new))) :
    Takes config fs s line s' l new := by
  unfold takeLine at h
  split at h
  · cases h
  · rename_i hstep
    cases h
    exact takes_of_step hstep (by simp)
  · rename_i hstep
    cases h
    exact takes_of_step hstep (by simp)
  · rename_i s₁ path hstep
    split at h
    · rename_i hdepth
      split at h
      · cases h
      · rename_i hopen
        cases h
        obtain ⟨target, hline⟩ := exists_activeInclusion hstep
        exact .enters hline hstep hdepth hopen
    · cases h

/-- Taking a line is what the description of it says. -/
theorem takes_iff :
    Takes config fs s line s' l new ↔ takeLine config fs s line = (s', .ok (l, new)) :=
  ⟨takeLine_of_takes, takes_of_takeLine⟩

/-- Walking through a buffer goes on behind each line that is taken. -/
theorem walk_of_take {hindex : index < b.lines.size}
    (htake : b.take config fs index hindex = (b', .ok ())) :
    b.walk config fs index = b'.walk config fs (index + 1) := by
  rw [Buffer.walk, dif_pos hindex]
  split
  · rename_i heq
    rw [htake] at heq
    cases heq
  · rename_i heq
    rw [htake] at heq
    cases heq
    rfl

end Preprocess

namespace Preprocessor

open Preprocess

variable {p : Preprocessor} {fs : FileSystem} {path : Path} {s : State} {b b' : Buffer}
  {index : Nat} {done pending : List Line}

/-- A run on the file at a path comes to a moment at which its buffer is given, and the line at
the index is the next to be taken. -/
inductive Passes (p : Preprocessor) (fs : FileSystem) (path : Path) : Buffer → Nat → Prop
  | start {s : State} {file : Nat} {texts : List String} :
    openFile fs (State.start p.config) path = (s, .ok (file, texts)) →
    Passes p fs path ⟨s, (Line.ofTexts file 0 texts).toArray⟩ 0
  | next {b b' : Buffer} {index : Nat} (hindex : index < b.lines.size) :
    Passes p fs path b index → b.take p.config fs index hindex = (b', .ok ()) →
    Passes p fs path b' (index + 1)

/-- What a run gives when it has walked through its buffer. -/
def finish (p : Preprocessor) (path : Path) :
    Buffer × Except Diagnostic Unit → Preprocessor × Except Diagnostic LogicalText
  | (buffer, .error d) => ({ p with buffer }, .error d)
  | (⟨s, lines⟩, .ok ()) =>
    ({ p with buffer := ⟨s.reportEnd path lines.size, #[]⟩ },
      .ok ⟨lines, (s.reportEnd path lines.size).files⟩)

/-- From each moment that a run comes to, it walks on to its end. -/
theorem Passes.run_eq (h : p.Passes fs path b index) :
    p.run fs path = p.finish path (b.walk p.config fs index) := by
  induction h with
  | start hopen =>
    simp only [run, reset, hopen]
    rfl
  | next hindex _ htake ih => rw [ih, walk_of_take htake]

/-- The moments of a run over lists of lines are moments of the buffer. -/
theorem passes_of_reaches (h : Reaches p.config fs path s done pending) :
    p.Passes fs path ⟨s, (done ++ pending).toArray⟩ done.length := by
  induction h with
  | start hopen => exact .start hopen
  | @next s s' done rest new line l _ htakes ih =>
    have hindex : done.length < (⟨s, (done ++ line :: rest).toArray⟩ : Buffer).lines.size := by
      simp
    have hnext := Passes.next hindex ih (take_of_ok rfl rfl hindex (takes_iff.mp htakes))
    rw [List.length_append, List.length_singleton, List.append_assoc]
    exact hnext

/-- A line that is taken in the buffer is taken in the run over lists of lines: it is behind the
index then, and the lines that it has put in are next. -/
theorem reaches_of_take (hindex : index < b.lines.size)
    (hreach : Reaches p.config fs path b.state (b.lines.toList.take index)
      (b.lines.toList.drop index))
    (htake : b.take p.config fs index hindex = (b', .ok ())) :
    index + 1 ≤ b'.lines.size ∧ Reaches p.config fs path b'.state
      (b'.lines.toList.take (index + 1)) (b'.lines.toList.drop (index + 1)) := by
  have hdone : (b.lines.toList.take index).length = index := by
    rw [List.length_take, Array.length_toList, Nat.min_eq_left (Nat.le_of_lt hindex)]
  have hpending : b.lines.toList.drop index =
      b.lines[index] :: b.lines.toList.drop (index + 1) :=
    List.drop_eq_getElem_cons (by simpa using hindex)
  have hlines := (List.take_append_drop index b.lines.toList).symm
  rw [hpending] at hlines hreach
  rcases htaken : takeLine p.config fs b.state b.lines[index] with ⟨s, d | ⟨l, new⟩⟩
  · rw [take_of_error hlines hdone hindex htaken] at htake
    cases htake
  · rw [take_of_ok hlines hdone hindex htaken] at htake
    cases htake
    have hnext := hreach.next (takes_iff.mpr htaken)
    generalize b.lines.toList.take index = done at hdone hnext ⊢
    have hlength : (done ++ [l]).length = index + 1 := by simp [hdone]
    rw [List.append_cons, List.take_left' hlength, List.drop_left' hlength]
    exact ⟨by simp [hdone], hnext⟩

/-- The moments of the buffer are those of a run over lists of lines: the lines before the index
were taken, and the lines from the index on are still to be taken. -/
theorem passes_iff : p.Passes fs path b index ↔ index ≤ b.lines.size ∧
    Reaches p.config fs path b.state (b.lines.toList.take index) (b.lines.toList.drop index) := by
  constructor
  · intro h
    induction h with
    | start hopen => exact ⟨Nat.zero_le _, .start hopen⟩
    | next hindex _ htake ih => exact reaches_of_take hindex ih.2 htake
  · rintro ⟨hindex, hreach⟩
    have hpasses := passes_of_reaches hreach
    rw [List.take_append_drop, List.length_take, Array.length_toList, Nat.min_eq_left hindex]
      at hpasses
    exact hpasses

end Preprocessor

end SmallC
