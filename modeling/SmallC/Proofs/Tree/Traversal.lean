import Mathlib.Data.List.Nodup
import Mathlib.Data.List.Perm.Basic
import Mathlib.Logic.Relation
import SmallC.Proofs.Tree.WellFormed
import SmallC.Tree.Sexp

/-!
# Walking through a tree

A recursion through a tree enters a node, goes through its children in their order and leaves
the node. Outlining a tree and writing it down are such walks. In a well-formed tree the walk
from the root enters each node once and leaves it once.
-/

namespace SmallC

/-- What a walk does at a node. -/
inductive Visit (α : Type) where
  | enter (a : α)
  | leave (a : α)
  deriving DecidableEq, Repr

namespace Visit

/-- What is entered. -/
def entered? {α : Type} : Visit α → Option α
  | .enter a => some a
  | .leave _ => none

/-- What is left. -/
def left? {α : Type} : Visit α → Option α
  | .enter _ => none
  | .leave a => some a

/-- The same visit of something else. -/
def map {α β : Type} (f : α → β) : Visit α → Visit β
  | .enter a => .enter (f a)
  | .leave a => .leave (f a)

end Visit

namespace Tree

/-- The visits of a walk from a node. -/
def walk (t : Tree) (id : Nat) : List (Visit Nat) :=
  .enter id :: ((t.children id).toList.attach.flatMap fun ⟨c, _hc⟩ => t.walk c) ++ [.leave id]
termination_by t.nodes.size - id
decreasing_by
  obtain ⟨hid, hsize⟩ := lt_of_mem_children (Array.mem_toList_iff.mp _hc)
  have hsize' : id < t.nodes.size := hsize
  omega

/-- The nodes that a walk enters, one after the other. -/
def visited (t : Tree) (id : Nat) : List Nat := (t.walk id).filterMap Visit.entered?

/-- The attributes of a node. -/
def attributes (t : Tree) (id : Nat) : Attributes := ((t.node? id).map (·.attributes)).getD []

/-- What is seen of a node. -/
def label (t : Tree) (id : Nat) : String × Attributes := (t.name id, t.attributes id)

variable {t : Tree} {id p c : Nat}

/-- A walk enters a node, walks through its children and leaves it. -/
theorem walk_eq (t : Tree) (id : Nat) :
    t.walk id = .enter id :: (t.children id).toList.flatMap t.walk ++ [.leave id] := by
  rw [walk]
  simp

/-- A walk visits a node and what its children visit. -/
theorem visited_eq (t : Tree) (id : Nat) :
    t.visited id = id :: (t.children id).toList.flatMap t.visited := by
  rw [visited, walk_eq, List.cons_append, List.filterMap_cons, List.filterMap_append,
    List.filterMap_flatMap]
  exact congrArg (id :: ·) (List.append_nil _)

/-- A property that passes from the children of a node to the node is one of all nodes. -/
theorem induction_children (t : Tree) {motive : Nat → Prop}
    (h : ∀ id, (∀ c ∈ t.children id, motive c) → motive id) (id : Nat) : motive id := by
  induction hn : t.size - id using Nat.strongRecOn generalizing id with
  | ind n ih =>
    refine h id fun c hc => ih (t.size - c) ?_ c rfl
    obtain ⟨hid, hsize⟩ := lt_of_mem_children hc
    omega

/-! ## Each node is entered once and left once -/

/-- A walk visits the node that it starts from. -/
theorem self_mem_visited (t : Tree) (id : Nat) : id ∈ t.visited id := by
  rw [visited_eq]
  exact List.mem_cons_self

/-- A walk visits its node, and whatever a walk from a child visits. -/
theorem mem_visited_iff :
    c ∈ t.visited id ↔ c = id ∨ ∃ d ∈ t.children id, c ∈ t.visited d := by
  rw [visited_eq, List.mem_cons, List.mem_flatMap]
  simp only [Array.mem_toList_iff]

/-- A walk visits no node before the one that it starts from. -/
theorem le_of_mem_visited : c ∈ t.visited id → id ≤ c := by
  induction id using t.induction_children with
  | h id ih =>
    intro hc
    rcases mem_visited_iff.mp hc with rfl | ⟨d, hd, hc⟩
    · exact Nat.le_refl _
    · exact Nat.le_trans (Nat.le_of_lt (lt_of_mem_children hd).1) (ih d hd hc)

/-- What is entered behind a node is entered behind its parent. -/
theorem exists_parent_of_mem_visited :
    c ∈ t.visited id → c = id ∨ ∃ p ∈ t.visited id, c ∈ t.children p := by
  induction id using t.induction_children with
  | h id ih =>
    intro hc
    rcases mem_visited_iff.mp hc with rfl | ⟨d, hd, hc⟩
    · exact .inl rfl
    · right
      rcases ih d hd hc with rfl | ⟨p, hp, hc⟩
      · exact ⟨id, t.self_mem_visited id, hd⟩
      · exact ⟨p, mem_visited_iff.mpr (.inr ⟨d, hd, hp⟩), hc⟩

/-- A walk that visits a node visits its children. -/
theorem mem_visited_of_mem_children (hc : c ∈ t.children p) :
    p ∈ t.visited id → c ∈ t.visited id := by
  induction id using t.induction_children with
  | h id ih =>
    intro hp
    rcases mem_visited_iff.mp hp with rfl | ⟨d, hd, hp⟩
    · exact mem_visited_iff.mpr (.inr ⟨c, hc, t.self_mem_visited c⟩)
    · exact mem_visited_iff.mpr (.inr ⟨d, hd, ih d hd hp⟩)

namespace WellFormed

/-- A node that two siblings lead to would make one of them lead to the other's parent. -/
theorem not_mem_visited_of_lt (ht : t.WellFormed) {a b : Nat} (ha : a ∈ t.children p)
    (hb : b ∈ t.children p) (hab : a < b) (hca : c ∈ t.visited a) : c ∉ t.visited b := by
  induction c using Nat.strongRecOn with
  | ind c ih =>
    intro hcb
    -- the parent of the node, unless the node is one of the siblings
    have hparent {q r : Nat} (hq : c ∈ t.children q) (hr : c ∈ t.children r) : q = r :=
      Option.some.inj (((ht.mem_children_iff q c).mp hq).symm.trans
        ((ht.mem_children_iff r c).mp hr))
    rcases exists_parent_of_mem_visited hca with rfl | ⟨q, hqa, hcq⟩
    · exact Nat.not_le_of_lt hab (le_of_mem_visited hcb)
    · rcases exists_parent_of_mem_visited hcb with rfl | ⟨r, hrb, hcr⟩
      · obtain rfl := hparent hcq hb
        exact Nat.not_le_of_lt (lt_of_mem_children ha).1 (le_of_mem_visited hqa)
      · obtain rfl := hparent hcq hcr
        exact ih q (lt_of_mem_children hcq).1 hqa hrb

/-- A walk visits no node twice. -/
theorem nodup_visited (ht : t.WellFormed) (id : Nat) : (t.visited id).Nodup := by
  induction id using t.induction_children with
  | h id ih =>
    rw [visited_eq, List.nodup_cons, List.nodup_flatMap]
    refine ⟨fun hid => ?_, fun c hc => ih c (Array.mem_toList_iff.mp hc), ?_⟩
    · obtain ⟨c, hc, hid⟩ := List.mem_flatMap.mp hid
      exact Nat.not_le_of_lt (lt_of_mem_children (Array.mem_toList_iff.mp hc)).1
        (le_of_mem_visited hid)
    · refine (ht.ascending id).imp_of_mem fun {a b} ha hb hab c hca => ?_
      exact ht.not_mem_visited_of_lt (Array.mem_toList_iff.mp ha) (Array.mem_toList_iff.mp hb)
        hab hca

/-- A walk from the root visits exactly the nodes of the tree. -/
theorem mem_visited_root_iff (ht : t.WellFormed) : c ∈ t.visited Tree.root ↔ c < t.size := by
  constructor
  · intro hc
    rcases exists_parent_of_mem_visited hc with rfl | ⟨p, -, hc⟩
    · exact ht.nonempty
    · exact ht.lt_size hc
  · induction c using Nat.strongRecOn with
    | ind c ih =>
      intro hc
      by_cases hroot : c = Tree.root
      · exact hroot ▸ t.self_mem_visited Tree.root
      · obtain ⟨p, hp, hparent⟩ := ht.parent c hc hroot
        exact mem_visited_of_mem_children ((ht.mem_children_iff p c).mpr hparent)
          (ih p hp (Nat.lt_trans hp hc))

/-- A walk from the root visits the nodes of the tree in some order. -/
theorem perm_visited_root (ht : t.WellFormed) :
    (t.visited Tree.root).Perm (List.range t.size) := by
  refine (List.perm_ext_iff_of_nodup (ht.nodup_visited _) List.nodup_range).mpr fun c => ?_
  rw [ht.mem_visited_root_iff, List.mem_range]

end WellFormed

/-- A walk leaves what it enters. -/
theorem perm_left (t : Tree) (id : Nat) :
    ((t.walk id).filterMap Visit.left?).Perm (t.visited id) := by
  induction id using t.induction_children with
  | h id ih =>
    rw [visited_eq, walk_eq, List.cons_append, List.filterMap_cons, List.filterMap_append,
      List.filterMap_flatMap]
    refine (List.perm_append_singleton id _).trans (List.Perm.cons id ?_)
    exact List.Perm.flatMap_left _ fun c hc => ih c (Array.mem_toList_iff.mp hc)

/-- Each visit enters a node or leaves one. -/
theorem length_eq_entered_add_left {α : Type} (visits : List (Visit α)) :
    visits.length =
      (visits.filterMap Visit.entered?).length + (visits.filterMap Visit.left?).length := by
  induction visits with
  | nil => rfl
  | cons visit visits ih =>
    cases visit with
    | enter a =>
      simp only [List.filterMap_cons, Visit.entered?, Visit.left?, List.length_cons]
      omega
    | leave a =>
      simp only [List.filterMap_cons, Visit.entered?, Visit.left?, List.length_cons]
      omega

namespace WellFormed

/-- A walk from the root enters each node once and leaves it once. -/
theorem length_walk_root (ht : t.WellFormed) : (t.walk Tree.root).length = 2 * t.size := by
  have hentered : ((t.walk Tree.root).filterMap Visit.entered?).length = t.size :=
    ht.perm_visited_root.length_eq.trans List.length_range
  have hleft : ((t.walk Tree.root).filterMap Visit.left?).length = t.size :=
    (t.perm_left Tree.root).length_eq.trans hentered
  rw [length_eq_entered_add_left, hentered, hleft, Nat.two_mul]

/-- Every node is reached from the root by going to children. -/
theorem reachable (ht : t.WellFormed) (hid : id < t.size) :
    Relation.ReflTransGen (fun p c => c ∈ t.children p) Tree.root id := by
  induction id using Nat.strongRecOn with
  | ind id ih =>
    by_cases hroot : id = Tree.root
    · exact hroot ▸ .refl
    · obtain ⟨p, hp, hparent⟩ := ht.parent id hid hroot
      exact (ih p hp (Nat.lt_trans hp hid)).tail ((ht.mem_children_iff p id).mpr hparent)

/-- A node stands once among the children of its parent, and not among others. -/
theorem count_children (ht : t.WellFormed) (p c : Nat) :
    (t.children p).toList.count c = if t.parent? c = some p then 1 else 0 := by
  have hnodup : (t.children p).toList.Nodup := (ht.ascending p).imp Nat.ne_of_lt
  by_cases hc : t.parent? c = some p
  · rw [if_pos hc]
    exact List.count_eq_one_of_mem hnodup
      (Array.mem_toList_iff.mpr ((ht.mem_children_iff p c).mpr hc))
  · rw [if_neg hc]
    exact List.count_eq_zero.mpr fun hmem =>
      hc ((ht.mem_children_iff p c).mp (Array.mem_toList_iff.mp hmem))

end WellFormed

end Tree

/-! ## Outlining and writing are walks -/

namespace Outline

mutual

/-- The visits of a walk through an outline. -/
def walk : Outline → List (Visit (String × Attributes))
  | .node name attributes children =>
    .enter (name, attributes) :: walks children ++ [.leave (name, attributes)]

/-- The visits of a walk through one outline after the other. -/
def walks : List Outline → List (Visit (String × Attributes))
  | [] => []
  | o :: os => o.walk ++ walks os

end

/-- The walks through outlines are those through each. -/
theorem walks_eq_flatMap (os : List Outline) : walks os = os.flatMap walk := by
  induction os with
  | nil => rfl
  | cons o os ih => rw [walks, ih, List.flatMap_cons]

end Outline

namespace Tree

/-- What a node unfolds to, by its name, attributes and children as the tree has them. -/
theorem outlineAt_eq_node (t : Tree) (id : Nat) :
    t.outlineAt id =
      .node (t.name id) (t.attributes id) ((t.children id).toList.map t.outlineAt) := by
  cases hn : t.nodes[id]? with
  | none =>
    have houtline : t.outlineAt id = .node "" [] [] := by
      rw [outlineAt]
      split
      · rfl
      · rename_i n hn'
        cases hn.symm.trans hn'
    simp [houtline, name, attributes, children, node?, hn]
  | some n =>
    rw [outlineAt_of_node hn]
    simp [name, attributes, children, node?, hn]

/-- The outline of a node is what is seen on the walk from it. -/
theorem walk_outlineAt (t : Tree) (id : Nat) :
    (t.outlineAt id).walk = (t.walk id).map (Visit.map t.label) := by
  induction id using t.induction_children with
  | h id ih =>
    have hchildren : (t.children id).toList.flatMap (fun c => (t.outlineAt c).walk) =
        (t.children id).toList.flatMap (fun c => (t.walk c).map (Visit.map t.label)) :=
      List.flatMap_congr fun c hc => ih c (Array.mem_toList_iff.mp hc)
    rw [outlineAt_eq_node, Outline.walk, Outline.walks_eq_flatMap, List.flatMap_map, hchildren,
      walk_eq, List.map_append, List.map_cons, List.map_flatMap]
    rfl

end Tree

namespace Sexp.Printer

/-- What is written at a visit: an opening parenthesis with the name and the attributes behind
it, or a closing one. -/
def follow (p : Printer) : Visit (String × Attributes) → Printer
  | .enter (name, attributes) => (p.openNode name).writeAttributes attributes
  | .leave _ => p.closeNode

mutual

/-- Printing an outline is following the walk through it. -/
theorem writeOutline_eq_foldl (p : Printer) :
    (o : Outline) → p.writeOutline o = o.walk.foldl follow p
  | .node name attributes children => by
    rw [writeOutline, writeOutlines_eq_foldl, Outline.walk, List.foldl_append, List.foldl_cons]
    rfl

/-- Printing outlines is following the walks through them. -/
theorem writeOutlines_eq_foldl (p : Printer) :
    (os : List Outline) → p.writeOutlines os = (Outline.walks os).foldl follow p
  | [] => rfl
  | o :: os => by
    rw [writeOutlines, writeOutlines_eq_foldl, writeOutline_eq_foldl p o, Outline.walks,
      List.foldl_append]

end

end Sexp.Printer

namespace Tree

open Sexp (Printer)

/-- Whatever is called, the tree is well-formed: each node but the root stands once among the
children of one node, and all nodes are below the root. Outlining the tree and writing it down
are walks that enter and leave every node once, so that they end after two visits for each. A
child is refused exactly if its parent has one of that name, and nothing changes then. -/
theorem ofCalls_wellFormed_walked (calls : List Call) :
    let t := ofCalls calls
    t.WellFormed ∧
      (∀ p c, (t.children p).toList.count c = if t.parent? c = some p then 1 else 0) ∧
      (∀ id < t.size, Relation.ReflTransGen (fun p c => c ∈ t.children p) root id) ∧
      (t.visited root).Perm (List.range t.size) ∧
      ((t.walk root).filterMap Visit.left?).Perm (List.range t.size) ∧
      (t.walk root).length = 2 * t.size ∧
      t.outline.walk = (t.walk root).map (Visit.map t.label) ∧
      (∀ p : Printer, p.writeOutline t.outline =
        ((t.walk root).map (Visit.map t.label)).foldl Printer.follow p) ∧
      ∀ parent < t.size, ∀ name,
        (t.addChild parent name = none ↔ ∃ c ∈ t.children parent, t.name c = name) ∧
          (t.addChild parent name = none → t.after (.addChild parent name) = t) := by
  intro t
  have ht : t.WellFormed := wellFormed_ofCalls calls
  refine ⟨ht, ht.count_children, fun id hid => ht.reachable hid, ht.perm_visited_root,
    (t.perm_left root).trans ht.perm_visited_root, ht.length_walk_root, t.walk_outlineAt root,
    fun p => ?_, fun parent hparent name => ⟨?_, fun hnone => ?_⟩⟩
  · rw [p.writeOutline_eq_foldl, ← t.walk_outlineAt root]
    rfl
  · rw [addChild_eq_none_iff hparent, childNames, List.mem_map]
    simp only [Array.mem_toList_iff]
    rfl
  · rw [after, hnone]
    rfl

/-- A second child of the same name is refused, and the tree stays as it is. -/
theorem refused_twin :
    (ofCalls [.addChild 1 "f", .addChild 1 "f"]).addChild 1 "f" = none ∧
      (ofCalls [.addChild 1 "f", .addChild 1 "f"]).after (.addChild 1 "f") =
        ofCalls [.addChild 1 "f", .addChild 1 "f"] := by
  have hsize : (ofCalls [.addChild 1 "f", .addChild 1 "f"]).size = 3 := by decide
  obtain ⟨-, -, -, -, -, -, -, -, hadd⟩ :=
    ofCalls_wellFormed_walked [.addChild 1 "f", .addChild 1 "f"]
  obtain ⟨hiff, hsame⟩ := hadd 1 (by rw [hsize]; decide) "f"
  have hnone := hiff.mpr ⟨2, Array.mem_toList_iff.mp (by decide), by decide⟩
  exact ⟨hnone, hsame hnone⟩

end Tree

end SmallC
