import SmallC.Constant
import SmallC.Text.Quoted
import SmallC.Text.Split

/-!
# Declaration trees

The nodes of a tree are numbered in the order in which they are added, from the
root `Unit` and its child `Body` on. A node has a name, attributes in the order of
their keys, and children in the order in which they were added, no two of them
with the same name.
-/

namespace SmallC

/-- The value of an attribute. -/
inductive Attribute where
  | text (s : String)
  | type (base : Primitive)
  | flag (b : Bool)
  | constant (value : Constant)
  deriving DecidableEq, Inhabited, Repr

/-- The written form of an attribute. -/
def Attribute.written : Attribute → String
  | .text s => Text.quoted s
  | .type base => base.name
  | .flag b => toString b
  | .constant value => value.text

/-- Attributes with their keys, in ascending order of the keys. -/
abbrev Attributes := List (String × Attribute)

/-- The attributes with one more, which replaces the one of the same key. -/
def Attributes.insert (key : String) (value : Attribute) : Attributes → Attributes
  | [] => [(key, value)]
  | (k, v) :: rest =>
    if key = k then (key, value) :: rest
    else if key < k then (key, value) :: (k, v) :: rest
    else (k, v) :: Attributes.insert key value rest

/-- The attribute of a key. -/
def Attributes.get? (key : String) (attributes : Attributes) : Option Attribute :=
  (attributes.find? fun e => e.1 = key).map (·.2)

/-- A node of a tree. -/
structure Node where
  /-- The name. -/
  name : String
  /-- The attributes. -/
  attributes : Attributes
  /-- The numbers of the children. -/
  children : Array Nat
  /-- The number of the parent; only the root has none. -/
  parent : Option Nat
  deriving DecidableEq, Inhabited, Repr

/-- A tree, given by its nodes; a child comes after its parent. -/
structure Tree where
  /-- The nodes, by their numbers. -/
  nodes : Array Node
  /-- A child has a greater number than its parent. -/
  ascending : ∀ (i : Nat) (n : Node), nodes[i]? = some n → ∀ c ∈ n.children, i < c

namespace Tree

/-- The number of the root. -/
def root : Nat := 0

/-- The number of the body of the whole unit. -/
def unitBody : Nat := 1

/-- The root and the body of the unit. -/
def empty : Tree where
  nodes := #[⟨"Unit", [], #[1], none⟩, ⟨"Body", [], #[], some 0⟩]
  ascending := by
    intro i n h c hc
    match i with
    | 0 =>
      obtain rfl : (⟨"Unit", [], #[1], none⟩ : Node) = n := by simpa using h
      obtain rfl : c = 1 := by simpa using hc
      omega
    | 1 =>
      obtain rfl : (⟨"Body", [], #[], some 0⟩ : Node) = n := by simpa using h
      simp at hc
    | i + 2 => simp at h

/-- The empty tree stands for one that is not there. -/
instance : Inhabited Tree := ⟨empty⟩

/-- The number of nodes. -/
def size (t : Tree) : Nat := t.nodes.size

/-- The node of a number. -/
def node? (t : Tree) (id : Nat) : Option Node := t.nodes[id]?

/-- The name of a node. -/
def name (t : Tree) (id : Nat) : String := ((t.node? id).map (·.name)).getD ""

/-- The parent of a node. -/
def parent? (t : Tree) (id : Nat) : Option Nat := (t.node? id).bind (·.parent)

/-- The children of a node. -/
def children (t : Tree) (id : Nat) : Array Nat := ((t.node? id).map (·.children)).getD #[]

/-- The attribute of a node under a key. -/
def attribute? (t : Tree) (id : Nat) (key : String) : Option Attribute :=
  (t.node? id).bind fun n => Attributes.get? key n.attributes

/-- The child of a node with a name. -/
def child? (t : Tree) (id : Nat) (name : String) : Option Nat :=
  (t.children id).find? fun c => t.name c = name

/-- The node at a path of names from the root, with a slash between each two. -/
def find? (t : Tree) (path : String) : Option Nat :=
  match Text.pieces '/' path.toList with
  | [] => none
  | first :: rest =>
    if String.ofList first = t.name root then
      rest.foldlM (fun id piece => t.child? id (String.ofList piece)) root
    else none

/-- The tree with one more node, the last child of its parent, and its number.
There is none if the parent has a child of that name, or is no node at all. -/
def addChild (t : Tree) (parent : Nat) (name : String) : Option (Tree × Nat) :=
  if hparent : parent < t.nodes.size then
    match t.child? parent name with
    | some _ => none
    | none =>
      let id := t.nodes.size
      let extended := t.nodes.modify parent fun n => { n with children := n.children.push id }
      some (⟨extended.push ⟨name, [], #[], some parent⟩, by
        intro i n h c hc
        rw [Array.getElem?_push] at h
        split at h
        · obtain rfl := Option.some.inj h
          simp at hc
        · rw [Array.getElem?_modify] at h
          split at h
          · rename_i heq
            obtain ⟨m, hm, rfl⟩ := Option.map_eq_some_iff.1 h
            rcases Array.mem_push.1 hc with hc | rfl
            · exact t.ascending i m hm c hc
            · exact heq ▸ hparent
          · exact t.ascending i n h c hc⟩, id)
  else none

/-- The tree with an attribute of a node set. -/
def setAttribute (t : Tree) (id : Nat) (key : String) (value : Attribute) : Tree where
  nodes := t.nodes.modify id fun n => { n with attributes := n.attributes.insert key value }
  ascending := by
    intro i n h c hc
    rw [Array.getElem?_modify] at h
    split at h
    · obtain ⟨m, hm, rfl⟩ := Option.map_eq_some_iff.1 h
      exact t.ascending i m hm c hc
    · exact t.ascending i n h c hc

end Tree

end SmallC
