import SmallC.Registry
import SmallC.Text.Split

/-!
# Logical lines

The lines of a text after inclusion, each with the file and the line it comes
from and the depth of inclusion.
-/

namespace SmallC

/-- A line and where it comes from. -/
structure Line where
  /-- The text, without the line end. -/
  text : String
  /-- The number of its file. -/
  file : Nat
  /-- Its number in the file, counted from one and at most the number of lines of the file. -/
  number : Nat
  /-- How many inclusions led to its file; zero for the first file. -/
  depth : Nat
  deriving DecidableEq, Inhabited, Repr

namespace Line

/-- The location of a line. -/
def location (l : Line) : Location := ⟨l.file, l.number, 1⟩

/-- The line without its text. -/
def blank (l : Line) : Line := { l with text := "" }

/-- The lines of a file, given their texts. -/
def ofTexts (file depth : Nat) (texts : List String) : List Line :=
  texts.zipIdx.map fun (text, i) => ⟨text, file, i + 1, depth⟩

/-- All lines of a file are in it. -/
theorem file_of_mem_ofTexts {file depth : Nat} {texts : List String} {l : Line}
    (h : l ∈ ofTexts file depth texts) : l.file = file := by
  obtain ⟨_, _, rfl⟩ := List.mem_map.1 h
  rfl

/-- All lines of a file are at its depth. -/
theorem depth_of_mem_ofTexts {file depth : Nat} {texts : List String} {l : Line}
    (h : l ∈ ofTexts file depth texts) : l.depth = depth := by
  obtain ⟨_, _, rfl⟩ := List.mem_map.1 h
  rfl

/-- A line of a file has a number up to how many lines the file has. -/
theorem number_of_mem_ofTexts {file depth : Nat} {texts : List String} {l : Line}
    (h : l ∈ ofTexts file depth texts) : 0 < l.number ∧ l.number ≤ texts.length := by
  obtain ⟨⟨text, i⟩, hi, rfl⟩ := List.mem_map.1 h
  have hlt := (List.mem_zipIdx hi).2.1
  exact ⟨Nat.succ_pos i, show i + 1 ≤ texts.length by omega⟩

end Line

/-- The texts of the lines of a text. -/
def lineTexts (source : String) : List String := (Text.lines source.toList).map String.ofList

/-- The lines of a text after inclusion, with the files they come from. -/
structure LogicalText where
  /-- The lines. -/
  lines : Array Line
  /-- The files. -/
  files : Registry
  deriving Inhabited, Repr

namespace LogicalText

/-- The lines as one text, each with a line end. -/
def text (t : LogicalText) : String :=
  t.lines.foldl (fun out line => (out ++ line.text).push '\n') ""

/-- Where a line comes from, the lines being counted from one. -/
def origin? (t : LogicalText) (number : Nat) : Option Location :=
  if number = 0 then none else (t.lines[number - 1]?).map Line.location

end LogicalText

end SmallC
