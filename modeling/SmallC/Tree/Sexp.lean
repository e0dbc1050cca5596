import SmallC.Tree.Outline

/-!
# S-expressions

An outline is written in parentheses: the name, then the attributes, each in
parentheses of its own, then the children. The parts stand on one line with a
space before each, or each on a line of its own, indented by its depth.
-/

namespace SmallC.Sexp

/-- What has been written, and where the next part goes. -/
structure Printer where
  /-- The text so far. -/
  out : String
  /-- How many nodes are open. -/
  depth : Nat
  /-- Each part gets a line of its own. -/
  indented : Bool
  deriving DecidableEq, Repr

namespace Printer

/-- Nothing written yet. -/
def start (indented : Bool) : Printer := ⟨"", 0, indented⟩

/-- The gap before a part. -/
def separate (p : Printer) : Printer :=
  if p.indented then
    { p with out := p.out ++ String.ofList ('\n' :: List.replicate (2 * p.depth) ' ') }
  else { p with out := p.out.push ' ' }

/-- Opens a node; the first one has no gap before it. -/
def openNode (p : Printer) (name : String) : Printer :=
  let p := if p.depth = 0 then p else p.separate
  { p with out := (p.out.push '(') ++ name, depth := p.depth + 1 }

/-- Closes a node. -/
def closeNode (p : Printer) : Printer := { p with out := p.out.push ')', depth := p.depth - 1 }

/-- Writes an attribute. -/
def writeAttribute (p : Printer) (key : String) (value : Attribute) : Printer :=
  let p := p.separate
  { p with out := p.out ++ "(" ++ key ++ " " ++ value.written ++ ")" }

/-- Writes attributes. -/
def writeAttributes (p : Printer) (values : Attributes) : Printer :=
  values.foldl (fun p (key, value) => p.writeAttribute key value) p

mutual

/-- Writes an outline. -/
def writeOutline (p : Printer) : Outline → Printer
  | .node name values children =>
    (writeOutlines ((p.openNode name).writeAttributes values) children).closeNode

/-- Writes outlines one after the other. -/
def writeOutlines (p : Printer) : List Outline → Printer
  | [] => p
  | o :: os => writeOutlines (writeOutline p o) os

end

end Printer

/-- An outline on one line. -/
def line (o : Outline) : String := ((Printer.start false).writeOutline o).out

/-- An outline over several lines, with a line end after the last. -/
def lines (o : Outline) : String := ((Printer.start true).writeOutline o).out.push '\n'

end SmallC.Sexp
