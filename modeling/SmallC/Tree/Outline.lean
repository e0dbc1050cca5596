import SmallC.Tree

/-!
# Outlines

The outline of a node is what can be seen of it and the nodes below it without
their numbers: names, attributes and the order of the children. Trees are printed
by their outlines.
-/

namespace SmallC

/-- A node with the outlines of its children. -/
inductive Outline where
  | node (name : String) (attributes : Attributes) (children : List Outline)

/-- The outline of a node; of what is no node, an empty one. -/
def Tree.outlineAt (t : Tree) (id : Nat) : Outline :=
  match _h : t.nodes[id]? with
  | none => .node "" [] []
  | some n =>
    .node n.name n.attributes (n.children.toList.attach.map fun ⟨c, _hc⟩ => t.outlineAt c)
termination_by t.nodes.size - id
decreasing_by
  have hlt := t.ascending id n _h c (by simpa using _hc)
  have hid : id < t.nodes.size := (Array.getElem?_eq_some_iff.1 _h).1
  omega

/-- The outline of a whole tree. -/
def Tree.outline (t : Tree) : Outline := t.outlineAt Tree.root

namespace Outline

/-- The attributes as JSON, floating-point values in the given format. -/
def attributesJson (format : Binary.Format) (attributes : Attributes) : Json :=
  .object <| attributes.map fun (key, value) =>
    (key, match value with
      | .text s => .string s
      | .type base => .string base.name
      | .flag b => .bool b
      | .constant value => value.toJson format)

mutual

/-- An outline as a JSON object that `members` forms of its name, its attributes
and its children. -/
def toJson (format : Binary.Format) (members : Json → Json → Json → List (String × Json)) :
    Outline → Json
  | .node name attributes children =>
    .object (members (.string name) (attributesJson format attributes)
      (.array (toJsons format members children)))

/-- Outlines as JSON objects. -/
def toJsons (format : Binary.Format) (members : Json → Json → Json → List (String × Json)) :
    List Outline → List Json
  | [] => []
  | o :: os => toJson format members o :: toJsons format members os

end

/-- An outline as a JSON text of many lines: the name comes first, then the
attributes and the children, and numbers are in single precision. -/
def document (o : Outline) : String :=
  (o.toJson Binary.single fun name attributes children =>
    [("name", name), ("attributes", attributes), ("children", children)]).lines

/-- An outline as a JSON text of one line: all keys are in order, and numbers are
in double precision. -/
def value (o : Outline) : String :=
  (o.toJson Binary.double fun name attributes children =>
    [("attributes", attributes), ("children", children), ("name", name)]).line

end Outline

end SmallC
