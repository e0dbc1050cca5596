import SmallC.Text.Split

/-!
# Paths

A path is kept as it was written. Two spellings name the same path if they have
the same components: repeated and trailing separators and single dots after the
start do not count, a single dot at the start does, and a double dot is never
resolved.
-/

namespace SmallC

/-- A path as it was written. -/
structure Path where
  /-- Its text. -/
  text : String
  deriving DecidableEq, Inhabited, Repr

namespace Path

/-- One step of a path. -/
inductive Component where
  | root
  | current
  | up
  | name (text : List Char)
  deriving DecidableEq, Repr

/-- The step that a piece between separators stands for, if any. -/
def Component.ofPiece? (piece : List Char) : Option Component :=
  if piece = [] ∨ piece = ['.'] then none
  else if piece = ['.', '.'] then some .up
  else some (.name piece)

/-- The mark at the start of a path (a separator, or a single dot that is a whole
piece), and the pieces after it. -/
def parts (p : Path) : List Char × List (List Char) :=
  match p.text.toList with
  | '/' :: cs => (['/'], Text.pieces '/' cs)
  | ['.'] => (['.'], [])
  | '.' :: '/' :: cs => (['.'], Text.pieces '/' ('/' :: cs))
  | cs => ([], Text.pieces '/' cs)

/-- The steps of a path. -/
def components (p : Path) : List Component :=
  let (mark, pieces) := p.parts
  let start := match mark with
    | ['/'] => [Component.root]
    | ['.'] => [Component.current]
    | _ => []
  start ++ pieces.filterMap Component.ofPiece?

/-- Two spellings of the same path. -/
def Same (p q : Path) : Prop := p.components = q.components

/-- Paths are compared by their components, which can be done by computing them. -/
instance (p q : Path) : Decidable (Same p q) := inferInstanceAs (Decidable (_ = _))

/-- Every path names what it names. -/
@[refl] theorem Same.refl (p : Path) : Same p p := rfl

/-- Naming the same has no direction. -/
@[symm] theorem Same.symm {p q : Path} (h : Same p q) : Same q p := Eq.symm h

/-- Paths that name the same as one path name the same as each other. -/
theorem Same.trans {p q r : Path} (hpq : Same p q) (hqr : Same q r) : Same p r :=
  Eq.trans hpq hqr

/-- A path that starts with a separator. -/
def isAbsolute (p : Path) : Bool := p.text.toList.head? = some '/'

/-- The path `q` as seen from the directory `p`. -/
def join (p q : Path) : Path :=
  if q.isAbsolute then q
  else if p.text = "" ∨ p.text.toList.getLast? = some '/' then ⟨p.text ++ q.text⟩
  else ⟨p.text ++ "/" ++ q.text⟩

/-- The pieces without those at the end that are no step, given in reverse. -/
def dropIdle : List (List Char) → List (List Char) :=
  List.dropWhile fun piece => (Component.ofPiece? piece).isNone

/-- The path without its last step; a separator alone and the empty path have
none. -/
def parent? (p : Path) : Option Path :=
  let (mark, pieces) := p.parts
  match dropIdle pieces.reverse with
  | _ :: rest =>
    some ⟨String.ofList (mark ++ Text.joined '/' (dropIdle rest).reverse)⟩
  | [] => if mark = ['.'] then some ⟨""⟩ else none

/-- The name of the last step up to its last dot; a dot at the start of the name
does not count, and a path that does not end in a name has none. -/
def stem? (p : Path) : Option String :=
  match p.components.getLast? with
  | some (.name cs) =>
    let before := (cs.reverse.dropWhile (· ≠ '.')).drop 1
    some (String.ofList (if before.isEmpty then cs else before.reverse))
  | _ => none

end Path

end SmallC
