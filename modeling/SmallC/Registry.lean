import SmallC.Path
import SmallC.Position

/-!
# The registry of files

Files get numbers in the order in which they are first met, and a file that is
met again, under whatever spelling of its path, keeps its number and its first
spelling.
-/

namespace SmallC

/-- The paths of the registered files, in the order of their numbers. -/
structure Registry where
  /-- The first spelling of each path. -/
  paths : Array Path
  deriving Inhabited, Repr

namespace Registry

/-- No files. -/
def empty : Registry := ⟨#[]⟩

/-- The number of files. -/
def size (r : Registry) : Nat := r.paths.size

/-- The number of a path, if it is registered. -/
def find? (r : Registry) (p : Path) : Option Nat := r.paths.findIdx? fun q => decide (q.Same p)

/-- The number of a path, which is registered if it was not before. -/
def register (r : Registry) (p : Path) : Registry × Nat :=
  match r.find? p with
  | some id => (r, id)
  | none => (⟨r.paths.push p⟩, r.size)

/-- The path of a number, if there is one. -/
def get? (r : Registry) (id : Nat) : Option Path := r.paths[id]?

/-- The numbers with their paths. -/
def entries (r : Registry) : List (Nat × Path) :=
  (List.range r.size).zip r.paths.toList

/-- The path of a location's file and its line. -/
def describe (r : Registry) (l : Location) : String :=
  match r.get? l.file with
  | some p => s!"{p.text}:{l.line}"
  | none => s!"<unknown>:{l.line}"

end Registry

end SmallC
