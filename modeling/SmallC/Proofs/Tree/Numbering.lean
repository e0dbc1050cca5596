import SmallC.Tree.Outline

/-!
# Numbering outlines

The nodes of a declaration tree are numbered as they are added, and a node is only
added below the last node of its depth. So the numbers are those of a walk through
the outline that takes each node before what is below it. Putting outlines below a
node is done once here, for all declarations.
-/

namespace SmallC

namespace Outline

/-- The name of the outermost node. -/
def name : Outline → String
  | .node name _ _ => name

mutual

/-- The number of nodes. -/
def size : Outline → Nat
  | .node _ _ children => sizes children + 1

/-- The number of nodes of several outlines. -/
def sizes : List Outline → Nat
  | [] => 0
  | o :: os => o.size + sizes os

end

/-- The numbers of the outermost nodes, if outlines are numbered from `start` on. -/
def numbers (start : Nat) : List Outline → List Nat
  | [] => []
  | o :: os => start :: numbers (start + o.size) os

mutual

/-- The nodes of an outline, numbered from `start` on. -/
def nodes (parent : Option Nat) (start : Nat) : Outline → List Node
  | .node name attributes children =>
    ⟨name, attributes, (numbers (start + 1) children).toArray, parent⟩ ::
      nodesBelow start (start + 1) children

/-- The nodes of outlines below a parent, numbered from `start` on. -/
def nodesBelow (parent start : Nat) : List Outline → List Node
  | [] => []
  | o :: os => o.nodes (some parent) start ++ nodesBelow parent (start + o.size) os

end

/-- The numbers of outlines one behind the other. -/
theorem numbers_append (start : Nat) (os os' : List Outline) :
    numbers start (os ++ os') = numbers start os ++ numbers (start + sizes os) os' := by
  induction os generalizing start with
  | nil => simp [numbers, sizes]
  | cons o os ih => simp [numbers, sizes, ih, Nat.add_assoc]

/-- The nodes of outlines one behind the other. -/
theorem nodesBelow_append (parent start : Nat) (os os' : List Outline) :
    nodesBelow parent start (os ++ os') =
      nodesBelow parent start os ++ nodesBelow parent (start + sizes os) os' := by
  induction os generalizing start with
  | nil => simp [nodesBelow, sizes]
  | cons o os ih => simp [nodesBelow, sizes, ih, Nat.add_assoc]

mutual

/-- An outline has as many nodes as it counts. -/
theorem length_nodes (parent : Option Nat) (start : Nat) :
    (o : Outline) → (o.nodes parent start).length = o.size
  | .node _ _ children => by
    rw [nodes, List.length_cons, length_nodesBelow, size]

/-- Outlines have as many nodes as they count. -/
theorem length_nodesBelow (parent start : Nat) :
    (os : List Outline) → (nodesBelow parent start os).length = sizes os
  | [] => rfl
  | o :: os => by
    rw [nodesBelow, List.length_append, length_nodes, length_nodesBelow, sizes]

end

end Outline

/-- What a node unfolds to is its name, its attributes and what its children unfold to. -/
theorem Tree.outlineAt_of_node {t : Tree} {id : Nat} {n : Node} (h : t.nodes[id]? = some n) :
    t.outlineAt id = .node n.name n.attributes (n.children.toList.map t.outlineAt) := by
  rw [outlineAt]
  split
  · rename_i hnone
    rw [h] at hnone
    cases hnone
  · rename_i m hm
    rw [h] at hm
    cases hm
    simp

open Outline

mutual

/-- The nodes from `start` on are those of an outline. -/
def Tree.Shows (t : Tree) (parent : Option Nat) (start : Nat) : Outline → Prop
  | .node name attributes children =>
    t.nodes[start]? =
        some ⟨name, attributes, (numbers (start + 1) children).toArray, parent⟩ ∧
      t.ShowsBelow start (start + 1) children

/-- The nodes from `start` on are those of outlines below a parent. -/
def Tree.ShowsBelow (t : Tree) (parent start : Nat) : List Outline → Prop
  | [] => True
  | o :: os => t.Shows (some parent) start o ∧ t.ShowsBelow parent (start + o.size) os

end

mutual

/-- A tree whose nodes are those of an outline from a number on shows the outline there. -/
theorem shows_of_nodes {t : Tree} {parent : Option Nat} {start : Nat} :
    (o : Outline) → (∀ k < o.size, t.nodes[start + k]? = (o.nodes parent start)[k]?) →
      t.Shows parent start o
  | .node name attributes children, h => by
    rw [Outline.size] at h
    refine ⟨h 0 (Nat.succ_pos _), showsBelow_of_nodes children fun k hk => ?_⟩
    have hk' := h (k + 1) (by omega)
    rw [show start + 1 + k = start + (k + 1) by omega, hk']
    rfl

/-- A tree whose nodes are those of outlines from a number on shows the outlines there. -/
theorem showsBelow_of_nodes {t : Tree} {parent start : Nat} :
    (os : List Outline) → (∀ k < sizes os, t.nodes[start + k]? = (nodesBelow parent start os)[k]?) →
      t.ShowsBelow parent start os
  | [], _ => trivial
  | o :: os, h => by
    rw [sizes] at h
    refine ⟨shows_of_nodes o fun k hk => ?_, showsBelow_of_nodes os fun k hk => ?_⟩
    · have hk' := h k (by omega)
      rw [hk', nodesBelow, List.getElem?_append_left (by simpa [length_nodes] using hk)]
    · have hk' := h (o.size + k) (by omega)
      rw [Nat.add_assoc, hk', nodesBelow, List.getElem?_append_right (by simp [length_nodes]),
        length_nodes, Nat.add_sub_cancel_left]

end

/-- A tree whose nodes are numbered by an outline shows it. -/
theorem Tree.shows_root {t : Tree} {o : Outline} (h : t.nodes.toList = o.nodes none 0) :
    t.Shows none root o := by
  refine shows_of_nodes o fun k _ => ?_
  show t.nodes[0 + k]? = (o.nodes none 0)[k]?
  rw [Nat.zero_add, ← h, Array.getElem?_toList]

mutual

/-- Nodes that are those of an outline have that outline. -/
theorem outlineAt_eq {t : Tree} {start : Nat} (parent : Option Nat) :
    (o : Outline) → t.Shows parent start o → t.outlineAt start = o
  | .node name attributes children, ⟨hroot, hbelow⟩ => by
    rw [Tree.outlineAt_of_node hroot]
    congr 1
    exact map_outlineAt_numbers start children hbelow

/-- Nodes that are those of outlines below a node have those outlines. -/
theorem map_outlineAt_numbers {t : Tree} {start : Nat} (parent : Nat) :
    (os : List Outline) → t.ShowsBelow parent start os → (numbers start os).map t.outlineAt = os
  | [], _ => rfl
  | o :: os, ⟨ho, hos⟩ => by
    rw [numbers, List.map_cons, outlineAt_eq (some parent) o ho,
      map_outlineAt_numbers parent os hos]

end

/-- A tree whose nodes are numbered by an outline has that outline. -/
theorem Tree.outline_eq {t : Tree} {o : Outline} (h : t.nodes.toList = o.nodes none 0) :
    t.outline = o := outlineAt_eq none o (shows_root h)

end SmallC
