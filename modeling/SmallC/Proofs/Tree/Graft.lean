import SmallC.Proofs.Tree.Numbering

/-!
# Growing a tree

Adding nodes to a declaration tree is putting outlines below one of its nodes, behind
the children that this has. What is put below the same node one after the other can be
put there at once, and what is put below a new node belongs to its outline.
-/

namespace SmallC

open Outline

/-- Nodes with outlines added below one of them. -/
def graft (nodes : Array Node) (parent : Nat) (os : List Outline) : Array Node :=
  (nodes.modify parent fun n =>
    { n with children := n.children ++ (numbers nodes.size os).toArray }) ++
    (nodesBelow parent nodes.size os).toArray

variable {nodes : Array Node} {parent : Nat} {os os' : List Outline}

/-- Grafting adds the nodes of the outlines. -/
theorem size_graft : (graft nodes parent os).size = nodes.size + sizes os := by
  simp [graft, length_nodesBelow]

/-- Grafting nothing changes nothing. -/
theorem graft_nil : graft nodes parent [] = nodes := by
  have hmodify : (nodes.modify parent fun n => n) = nodes := by
    apply Array.ext_getElem?
    intro i
    simp [Array.getElem?_modify]
  simp [graft, numbers, nodesBelow, hmodify]

/-- What was a node before stays one, with more children if it is the parent. -/
theorem getElem?_graft_of_lt {i : Nat} (hi : i < nodes.size) :
    (graft nodes parent os)[i]? = nodes[i]?.map fun n =>
      if i = parent then { n with children := n.children ++ (numbers nodes.size os).toArray }
      else n := by
  unfold graft
  rw [Array.getElem?_append_left (by simpa using hi), Array.getElem?_modify]
  by_cases h : parent = i
  · simp [h]
  · simp [h, Ne.symm h]

/-- The new nodes are those of the outlines, in order. -/
theorem getElem?_graft_of_ge {i : Nat} (hi : nodes.size ≤ i) :
    (graft nodes parent os)[i]? = (nodesBelow parent nodes.size os)[i - nodes.size]? := by
  unfold graft
  rw [Array.getElem?_append_right (by simpa using hi)]
  simp

/-- Outlines put below the same node one after the other. -/
theorem graft_graft (hparent : parent < nodes.size) :
    graft (graft nodes parent os) parent os' = graft nodes parent (os ++ os') := by
  apply Array.ext_getElem?
  intro i
  rcases Nat.lt_or_ge i nodes.size with hi | hi
  · rw [getElem?_graft_of_lt (by rw [size_graft]; omega), getElem?_graft_of_lt hi,
      getElem?_graft_of_lt hi, size_graft, numbers_append, Option.map_map]
    congr 1
    funext n
    by_cases h : i = parent <;> simp [h]
  · rw [getElem?_graft_of_ge hi, nodesBelow_append, List.getElem?_append, length_nodesBelow]
    by_cases hlt : i < nodes.size + sizes os
    · have hne : i ≠ parent := by omega
      rw [getElem?_graft_of_lt (by rw [size_graft]; omega), getElem?_graft_of_ge hi,
        if_pos (by omega)]
      simp [hne]
    · rw [getElem?_graft_of_ge (by rw [size_graft]; omega), size_graft, if_neg (by omega),
        Nat.sub_add_eq]

/-- A leaf is one node. -/
theorem size_graft_leaf (name : String) (attributes : Attributes) :
    (graft nodes parent [.node name attributes []]).size = nodes.size + 1 := by
  simp [size_graft, sizes, Outline.size]

/-- Outlines put below a new node that is the last one. -/
theorem graft_leaf (name : String) (attributes : Attributes)
    (os : List Outline) :
    graft (graft nodes parent [.node name attributes []]) nodes.size os =
      graft nodes parent [.node name attributes os] := by
  have hsize : (graft nodes parent [.node name attributes []]).size = nodes.size + 1 :=
    size_graft_leaf name attributes
  apply Array.ext_getElem?
  intro i
  rcases Nat.lt_trichotomy i nodes.size with hi | rfl | hi
  · have hne : i ≠ nodes.size := by omega
    rw [getElem?_graft_of_lt (by omega), getElem?_graft_of_lt hi, getElem?_graft_of_lt hi]
    cases nodes[i]? <;> simp [hne, numbers]
  · rw [getElem?_graft_of_lt (by omega), getElem?_graft_of_ge (Nat.le_refl _),
      getElem?_graft_of_ge (Nat.le_refl _), hsize]
    simp [nodesBelow, Outline.nodes, numbers]
  · rw [getElem?_graft_of_ge (by omega), getElem?_graft_of_ge (by omega), hsize]
    obtain ⟨k, rfl⟩ : ∃ k, i = nodes.size + 1 + k := ⟨i - (nodes.size + 1), by omega⟩
    have hk : nodes.size + 1 + k - nodes.size = k + 1 := by omega
    simp [nodesBelow, Outline.nodes, hk]

/-- Setting an attribute of a new node that is the last one. -/
theorem modify_graft_leaf (name : String) (attributes : Attributes) (key : String)
    (value : Attribute) :
    ((graft nodes parent [.node name attributes []]).modify nodes.size fun n =>
        { n with attributes := n.attributes.insert key value }) =
      graft nodes parent [.node name (attributes.insert key value) []] := by
  have hsize : (graft nodes parent [.node name attributes []]).size = nodes.size + 1 :=
    size_graft_leaf name attributes
  apply Array.ext_getElem?
  intro i
  rw [Array.getElem?_modify]
  rcases Nat.lt_trichotomy i nodes.size with hi | rfl | hi
  · have hne : nodes.size ≠ i := by omega
    rw [if_neg hne, getElem?_graft_of_lt hi, getElem?_graft_of_lt hi]
    rfl
  · rw [if_pos rfl, getElem?_graft_of_ge (Nat.le_refl _), getElem?_graft_of_ge (Nat.le_refl _)]
    simp [nodesBelow, Outline.nodes]
  · have hne : nodes.size ≠ i := by omega
    rw [if_neg hne, getElem?_graft_of_ge (by omega), getElem?_graft_of_ge (by omega)]
    obtain ⟨k, rfl⟩ : ∃ k, i = nodes.size + 1 + k := ⟨i - (nodes.size + 1), by omega⟩
    have hk : nodes.size + 1 + k - nodes.size = k + 1 := by omega
    simp [nodesBelow, Outline.nodes, hk]

/-! ## What is seen of the nodes -/

/-- The children of every node are nodes. -/
def Bounded (nodes : Array Node) : Prop :=
  ∀ (i : Nat) (n : Node), nodes[i]? = some n → ∀ c ∈ n.children, c < nodes.size

/-- The name of a node. -/
def nameAt (nodes : Array Node) (i : Nat) : String := (nodes[i]?.map (·.name)).getD ""

/-- The parent of a node. -/
def parentAt? (nodes : Array Node) (i : Nat) : Option Nat := nodes[i]?.bind (·.parent)

/-- The children of a node. -/
def childrenAt (nodes : Array Node) (i : Nat) : Array Nat := (nodes[i]?.map (·.children)).getD #[]

/-- The names of the children of a node. -/
def childNames (nodes : Array Node) (i : Nat) : List String :=
  (childrenAt nodes i).toList.map (nameAt nodes)

/-- Nodes that were there keep their names. -/
theorem nameAt_graft {i : Nat} (hi : i < nodes.size) :
    nameAt (graft nodes parent os) i = nameAt nodes i := by
  unfold nameAt
  rw [getElem?_graft_of_lt hi, Option.map_map]
  congr 2
  funext n
  by_cases h : i = parent <;> simp [h]

/-- Nodes that were there keep their parents. -/
theorem parentAt?_graft {i : Nat} (hi : i < nodes.size) :
    parentAt? (graft nodes parent os) i = parentAt? nodes i := by
  unfold parentAt?
  rw [getElem?_graft_of_lt hi]
  cases nodes[i]? with
  | none => rfl
  | some n => by_cases h : i = parent <;> simp [h]

/-- The node that is grafted below gets the roots of the outlines as its last children. -/
theorem childrenAt_graft_self (hparent : parent < nodes.size) :
    childrenAt (graft nodes parent os) parent =
      childrenAt nodes parent ++ (numbers nodes.size os).toArray := by
  unfold childrenAt
  rw [getElem?_graft_of_lt hparent, Array.getElem?_eq_getElem hparent]
  simp

/-- Children are nodes that are there. -/
theorem lt_of_mem_childrenAt (hnodes : Bounded nodes) {i c : Nat} (hc : c ∈ childrenAt nodes i) :
    c < nodes.size := by
  unfold childrenAt at hc
  cases hn : nodes[i]? with
  | none => simp [hn] at hc
  | some n => exact hnodes i n hn c (by simpa [hn] using hc)

/-- The names of outlines are found at their numbers. -/
theorem map_nameAt_numbers (parent : Nat) {start : Nat}
    (h : ∀ k < sizes os, nodes[start + k]? = (nodesBelow parent start os)[k]?) :
    (numbers start os).map (nameAt nodes) = os.map Outline.name := by
  induction os generalizing start with
  | nil => rfl
  | cons o os ih =>
    obtain ⟨name, attributes, children⟩ := o
    have hhead : nodes[start]? = _ := h 0 (by simp only [sizes, Outline.size]; omega)
    have hname : nameAt nodes start = name := by
      simp [nameAt, hhead, nodesBelow, Outline.nodes]
    have htail : (numbers (start + (Outline.node name attributes children).size) os).map
        (nameAt nodes) = os.map Outline.name := by
      refine ih fun k hk => ?_
      have hk' := h ((Outline.node name attributes children).size + k)
        (by simp only [sizes]; omega)
      rw [← Nat.add_assoc] at hk'
      rw [hk', nodesBelow, List.getElem?_append_right (by simp [length_nodes]), length_nodes,
        Nat.add_sub_cancel_left]
    simp [numbers, hname, htail, Outline.name]

/-- Outlines put below a node come after the children that it has. -/
theorem childNames_graft_self (hnodes : Bounded nodes) (hparent : parent < nodes.size) :
    childNames (graft nodes parent os) parent =
      childNames nodes parent ++ os.map Outline.name := by
  unfold childNames
  rw [childrenAt_graft_self hparent, Array.toList_append, List.map_append]
  congr 1
  · refine List.map_congr_left fun c hc => nameAt_graft ?_
    exact lt_of_mem_childrenAt hnodes (Array.mem_toList_iff.mp hc)
  · refine map_nameAt_numbers parent fun k hk => ?_
    rw [getElem?_graft_of_ge (by omega), Nat.add_sub_cancel_left]

/-- Outlines are numbered from the start. -/
theorem le_of_mem_numbers {start c : Nat} (hc : c ∈ numbers start os) : start ≤ c := by
  induction os generalizing start with
  | nil => cases hc
  | cons o os ih =>
    rcases List.mem_cons.mp hc with rfl | hc
    · exact Nat.le_refl _
    · exact Nat.le_trans (Nat.le_add_right _ _) (ih hc)

/-- The numbers of outlines are below the end of their nodes. -/
theorem lt_of_mem_numbers {start c : Nat} (hc : c ∈ numbers start os) : c < start + sizes os := by
  induction os generalizing start with
  | nil => cases hc
  | cons o os ih =>
    obtain ⟨name, attributes, children⟩ := o
    rw [numbers, List.mem_cons] at hc
    rw [sizes]
    rcases hc with rfl | hc
    · rw [Outline.size]
      omega
    · have := ih hc
      omega

mutual

/-- Children in an outline are numbered before its end. -/
theorem lt_of_mem_nodes {p : Option Nat} {start c : Nat} {n : Node} :
    (o : Outline) → n ∈ o.nodes p start → c ∈ n.children → c < start + o.size
  | .node name attributes children, hn, hc => by
    rw [Outline.nodes, List.mem_cons] at hn
    rw [Outline.size]
    rcases hn with rfl | hn
    · have := lt_of_mem_numbers (List.mem_toArray.mp hc)
      omega
    · have := lt_of_mem_nodesBelow children hn hc
      omega

/-- Children in outlines are numbered before their end. -/
theorem lt_of_mem_nodesBelow {p start c : Nat} {n : Node} :
    (os : List Outline) → n ∈ nodesBelow p start os → c ∈ n.children → c < start + sizes os
  | [], hn, _ => by cases hn
  | o :: os, hn, hc => by
    rw [nodesBelow, List.mem_append] at hn
    rw [sizes]
    rcases hn with hn | hn
    · have := lt_of_mem_nodes o hn hc
      omega
    · have := lt_of_mem_nodesBelow os hn hc
      omega

end

/-- Grafting keeps all children among the nodes. -/
theorem Bounded.graft (hnodes : Bounded nodes) : Bounded (graft nodes parent os) := by
  intro i n hn c hc
  rw [size_graft]
  rcases Nat.lt_or_ge i nodes.size with hi | hi
  · rw [getElem?_graft_of_lt hi] at hn
    obtain ⟨m, hm, rfl⟩ := Option.map_eq_some_iff.mp hn
    have hold := hnodes i m hm c
    by_cases h : i = parent
    · simp only [h, if_true, Array.mem_append, List.mem_toArray] at hc
      rcases hc with hc | hc
      · have := hold hc
        omega
      · exact lt_of_mem_numbers hc
    · rw [if_neg h] at hc
      have := hold hc
      omega
  · rw [getElem?_graft_of_ge hi] at hn
    exact lt_of_mem_nodesBelow os (List.mem_of_getElem? hn) hc

/-! ## A new node -/

/-- The first node of an outline that is grafted, with its children numbered behind it. -/
theorem getElem?_graft_new (name : String) (attributes : Attributes) (children : List Outline) :
    (graft nodes parent [.node name attributes children])[nodes.size]? =
      some ⟨name, attributes, (numbers (nodes.size + 1) children).toArray, some parent⟩ := by
  rw [getElem?_graft_of_ge (Nat.le_refl _), Nat.sub_self]
  simp [nodesBelow, Outline.nodes]

/-- The name of the first new node. -/
theorem nameAt_graft_new (name : String) (attributes : Attributes) (children : List Outline) :
    nameAt (graft nodes parent [.node name attributes children]) nodes.size = name := by
  simp [nameAt, getElem?_graft_new]

/-- The parent of the first new node. -/
theorem parentAt?_graft_new (name : String) (attributes : Attributes) (children : List Outline) :
    parentAt? (graft nodes parent [.node name attributes children]) nodes.size = some parent := by
  simp [parentAt?, getElem?_graft_new]

/-- The names of the children of the first new node. -/
theorem childNames_graft_new (hnodes : Bounded nodes) (name : String) (attributes : Attributes)
    (children : List Outline) :
    childNames (graft nodes parent [.node name attributes children]) nodes.size =
      children.map Outline.name := by
  have hleaf : childNames (graft nodes parent [.node name attributes []]) nodes.size = [] := by
    simp [childNames, childrenAt, getElem?_graft_new, numbers]
  rw [← graft_leaf, childNames_graft_self hnodes.graft (by rw [size_graft_leaf]; omega), hleaf,
    List.nil_append]

namespace Tree

/-- The name of a node, by the array of nodes alone. -/
theorem name_eq (t : Tree) (i : Nat) : t.name i = nameAt t.nodes i := rfl

/-- The parent of a node, by the array of nodes alone. -/
theorem parent?_eq (t : Tree) (i : Nat) : t.parent? i = parentAt? t.nodes i := rfl

/-- A node has as many children as names of children. -/
theorem size_children (t : Tree) (i : Nat) :
    (t.children i).size = (childNames t.nodes i).length := by
  simp [childNames, childrenAt, children, node?]

/-- No child is found by a name exactly if no child has it. -/
theorem child?_eq_none_iff (t : Tree) (i : Nat) (name : String) :
    t.child? i name = none ↔ name ∉ childNames t.nodes i := by
  have hchildren : t.children i = childrenAt t.nodes i := rfl
  rw [child?, hchildren, Array.find?_eq_none, childNames, List.mem_map]
  constructor
  · rintro h ⟨c, hc, rfl⟩
    exact h c (Array.mem_toList_iff.mp hc) (decide_eq_true rfl)
  · intro h c hc heq
    exact h ⟨c, Array.mem_toList_iff.mpr hc, of_decide_eq_true heq⟩

/-- A tree is its nodes. -/
theorem ext_nodes {t t' : Tree} (h : t.nodes = t'.nodes) : t = t' := by
  cases t
  cases t'
  cases h
  rfl

/-- Adding a child to a node and the node itself behind all others is grafting a leaf. -/
theorem push_modify_eq_graft (nodes : Array Node) (parent : Nat) (name : String) :
    (nodes.modify parent fun n => { n with children := n.children.push nodes.size }).push
        ⟨name, [], #[], some parent⟩ =
      graft nodes parent [.node name [] []] := by
  simp [graft, numbers, nodesBelow, Outline.nodes]

/-- A node is added exactly if it has another name than its siblings. -/
theorem addChild_eq_some_iff {t t' : Tree} {parent id : Nat} {name : String}
    (hparent : parent < t.nodes.size) :
    t.addChild parent name = some (t', id) ↔
      name ∉ childNames t.nodes parent ∧ id = t.nodes.size ∧
        t'.nodes = graft t.nodes parent [.node name [] []] := by
  rw [← child?_eq_none_iff, addChild, dif_pos hparent]
  cases hchild : t.child? parent name with
  | some c => simp
  | none =>
    simp only [Option.some.injEq, Prod.mk.injEq, true_and]
    constructor
    · rintro ⟨rfl, rfl⟩
      exact ⟨rfl, push_modify_eq_graft t.nodes parent name⟩
    · rintro ⟨rfl, hnodes⟩
      refine ⟨ext_nodes ?_, rfl⟩
      rw [hnodes]
      exact push_modify_eq_graft t.nodes parent name

/-- A child is refused exactly if a sibling has its name. -/
theorem addChild_eq_none_iff {t : Tree} {parent : Nat} {name : String}
    (hparent : parent < t.nodes.size) :
    t.addChild parent name = none ↔ name ∈ childNames t.nodes parent := by
  rw [addChild, dif_pos hparent]
  cases hchild : t.child? parent name with
  | none => simpa only [reduceCtorEq, false_iff] using (child?_eq_none_iff t parent name).mp hchild
  | some c =>
    have hmem : ¬ name ∉ childNames t.nodes parent := by
      rw [← child?_eq_none_iff, hchild]
      simp
    simpa only [true_iff] using Decidable.not_not.mp hmem

/-- A child whose name no sibling has is grafted as a leaf. -/
theorem exists_addChild {t : Tree} {parent : Nat} {name : String} (hparent : parent < t.nodes.size)
    (hname : name ∉ childNames t.nodes parent) :
    ∃ t', t.addChild parent name = some (t', t.nodes.size) ∧
      t'.nodes = graft t.nodes parent [.node name [] []] := by
  cases hadd : t.addChild parent name with
  | none => exact absurd ((addChild_eq_none_iff hparent).mp hadd) hname
  | some r =>
    obtain ⟨-, hid, hnodes⟩ := (addChild_eq_some_iff hparent).mp hadd
    exact ⟨r.1, by rw [← hid], hnodes⟩

/-- An attribute of a new node. -/
theorem nodes_setAttribute {t : Tree} {nodes : Array Node} {parent : Nat} {name : String}
    {attributes : Attributes} (h : t.nodes = graft nodes parent [.node name attributes []])
    (key : String) (value : Attribute) :
    (t.setAttribute nodes.size key value).nodes =
      graft nodes parent [.node name (attributes.insert key value) []] := by
  have hset : (t.setAttribute nodes.size key value).nodes = t.nodes.modify nodes.size fun n =>
      { n with attributes := n.attributes.insert key value } := rfl
  rw [hset, h]
  exact modify_graft_leaf name attributes key value

end Tree

end SmallC
