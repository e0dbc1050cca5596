import SmallC.Proofs.Tree.Graft

/-!
# Trees that calls can make

A tree is made by calls that add a child or set an attribute. Whatever is called, and whatever
is refused, parents and children tell the same, each node but the root is found once among the
children of one node with a smaller number, and no two children of a node have the same name.
-/

namespace SmallC

namespace Tree

/-- A call that changes a tree. -/
inductive Call where
  | addChild (parent : Nat) (name : String)
  | setAttribute (id : Nat) (key : String) (value : Attribute)
  deriving DecidableEq, Repr

/-- The tree after a call; a child that is refused leaves the tree as it was. -/
def after (t : Tree) : Call → Tree
  | .addChild parent name => ((t.addChild parent name).map (·.1)).getD t
  | .setAttribute id key value => t.setAttribute id key value

/-- The tree after calls that are made one after the other. -/
def afterAll (t : Tree) (calls : List Call) : Tree := calls.foldl after t

/-- The tree that calls make of the first two nodes. -/
def ofCalls (calls : List Call) : Tree := empty.afterAll calls

/-- Parents and children agree, and so do the numbers and names of the nodes. -/
structure WellFormed (t : Tree) : Prop where
  /-- There is a root. -/
  nonempty : root < t.size
  /-- It has no parent. -/
  root : t.parent? root = none
  /-- Every other node has a parent, whose number is smaller. -/
  parent : ∀ id < t.size, id ≠ Tree.root → ∃ p < id, t.parent? id = some p
  /-- The children of a node are the nodes of which it is the parent. -/
  mem_children_iff : ∀ p c, c ∈ t.children p ↔ t.parent? c = some p
  /-- They come in the order of their numbers. -/
  ascending : ∀ p, (t.children p).toList.Pairwise (· < ·)
  /-- They have different names. -/
  names : ∀ p, ((t.children p).toList.map t.name).Nodup

variable {t t' : Tree} {parent id p c i : Nat} {name key : String} {value : Attribute}
  {calls calls' : List Call}

/-! ## What calls do to nodes -/

/-- A node with a parent is there. -/
theorem lt_size_of_parent? (h : t.parent? c = some p) : c < t.size := by
  obtain ⟨n, hn, -⟩ := Option.bind_eq_some_iff.mp h
  exact (Array.getElem?_eq_some_iff.mp hn).1

/-- A child comes behind the node that has it, which is there. -/
theorem lt_of_mem_children (h : c ∈ t.children p) : p < c ∧ p < t.size := by
  unfold children at h
  cases hn : t.node? p with
  | none => simp [hn] at h
  | some n =>
    rw [hn] at h
    exact ⟨t.ascending p n hn c h, (Array.getElem?_eq_some_iff.mp hn).1⟩

/-- Setting an attribute changes no names. -/
theorem name_setAttribute : (t.setAttribute id key value).name i = t.name i := by
  simp only [Tree.name, node?, setAttribute, Array.getElem?_modify]
  cases t.nodes[i]? <;> by_cases h : id = i <;> simp [h]

/-- Setting an attribute changes no parents. -/
theorem parent?_setAttribute : (t.setAttribute id key value).parent? i = t.parent? i := by
  simp only [parent?, node?, setAttribute, Array.getElem?_modify]
  cases t.nodes[i]? <;> by_cases h : id = i <;> simp [h]

/-- Setting an attribute changes no children. -/
theorem children_setAttribute : (t.setAttribute id key value).children i = t.children i := by
  simp only [children, node?, setAttribute, Array.getElem?_modify]
  cases t.nodes[i]? <;> by_cases h : id = i <;> simp [h]

/-- Setting an attribute adds no nodes. -/
theorem size_setAttribute : (t.setAttribute id key value).size = t.size := by
  simp [size, setAttribute]

/-- A child is added to a node, and it gets the next number. -/
theorem added_of_addChild (h : t.addChild parent name = some (t', id)) :
    parent < t.size ∧ name ∉ (t.children parent).toList.map t.name ∧ id = t.size ∧
      t'.nodes = graft t.nodes parent [.node name [] []] := by
  have hparent : parent < t.nodes.size := by
    refine Nat.lt_of_not_le fun hle => ?_
    rw [addChild, dif_neg (Nat.not_lt_of_le hle)] at h
    cases h
  obtain ⟨hname, hid, hnodes⟩ := (addChild_eq_some_iff hparent).mp h
  exact ⟨hparent, hname, hid, hnodes⟩

/-- Adding a child adds one node. -/
theorem size_of_addChild (h : t.addChild parent name = some (t', id)) :
    t'.size = t.size + 1 := by
  obtain ⟨-, -, -, hnodes⟩ := added_of_addChild h
  rw [size, hnodes, size_graft_leaf]
  rfl

/-- The nodes after a child was added: the new one behind all others, and its parent with one child
more. -/
theorem node?_of_addChild (h : t.addChild parent name = some (t', id)) :
    t'.node? i = if i = t.size then some ⟨name, [], #[], some parent⟩
      else (t.node? i).map fun n =>
        if i = parent then { n with children := n.children.push t.size } else n := by
  obtain ⟨-, -, -, hnodes⟩ := added_of_addChild h
  rw [node?, hnodes]
  by_cases hi : i = t.size
  · rw [if_pos hi, hi]
    exact getElem?_graft_new name [] []
  · rw [if_neg hi]
    rcases Nat.lt_or_gt_of_ne hi with hlt | hgt
    · rw [getElem?_graft_of_lt hlt]
      rfl
    · have hnone : t.node? i = none := Array.getElem?_eq_none (Nat.le_of_lt hgt)
      rw [hnone, Option.map_none, Array.getElem?_eq_none]
      rw [size_graft_leaf]
      exact hgt

/-- Adding a child gives its name to the new node only. -/
theorem name_of_addChild (h : t.addChild parent name = some (t', id)) :
    t'.name i = if i = t.size then name else t.name i := by
  rw [Tree.name, node?_of_addChild h]
  by_cases hi : i = t.size
  · simp [hi]
  · rw [if_neg hi, if_neg hi, Option.map_map, Tree.name]
    congr 2
    funext n
    by_cases hp : i = parent <;> simp [hp]

/-- Adding a child gives its parent to the new node only. -/
theorem parent?_of_addChild (h : t.addChild parent name = some (t', id)) :
    t'.parent? i = if i = t.size then some parent else t.parent? i := by
  rw [parent?, node?_of_addChild h]
  by_cases hi : i = t.size
  · simp [hi]
  · rw [if_neg hi, if_neg hi, parent?]
    cases t.node? i <;> by_cases hp : i = parent <;> simp [hp]

/-- Adding a child gives it to its parent, behind the children that there are. -/
theorem children_of_addChild (h : t.addChild parent name = some (t', id)) :
    t'.children i = if i = parent then (t.children parent).push t.size else t.children i := by
  obtain ⟨hparent, -⟩ := added_of_addChild h
  have hne : parent ≠ t.size := Nat.ne_of_lt hparent
  rw [children, node?_of_addChild h]
  by_cases hi : i = t.size
  · have hnone : t.node? t.size = none := Array.getElem?_eq_none (Nat.le_refl _)
    simp [hi, hne.symm, children, hnone]
  · by_cases hp : i = parent
    · have hsome : t.node? parent = some t.nodes[parent] := Array.getElem?_eq_getElem hparent
      simp [hp, hne, children, hsome]
    · simp [hi, hp, children]

/-! ## Calls keep a tree well-formed -/

namespace WellFormed

/-- Children are nodes of the tree. -/
theorem lt_size (ht : t.WellFormed) (hc : c ∈ t.children p) : c < t.size :=
  lt_size_of_parent? ((ht.mem_children_iff p c).mp hc)

/-- Setting an attribute keeps a tree well-formed, as it touches neither parents, children nor
names. -/
theorem setAttribute (ht : t.WellFormed) (id : Nat) (key : String) (value : Attribute) :
    (t.setAttribute id key value).WellFormed := by
  constructor
  · rw [size_setAttribute]
    exact ht.nonempty
  · rw [parent?_setAttribute]
    exact ht.root
  · simp only [size_setAttribute, parent?_setAttribute]
    exact ht.parent
  · simp only [children_setAttribute, parent?_setAttribute]
    exact ht.mem_children_iff
  · simp only [children_setAttribute]
    exact ht.ascending
  · have hname : (t.setAttribute id key value).name = t.name := funext fun _ => name_setAttribute
    simp only [children_setAttribute, hname]
    exact ht.names

/-- The children of a node keep their names. -/
theorem map_name_children (ht : t.WellFormed) (hadd : t.addChild parent name = some (t', id))
    (p : Nat) : (t.children p).toList.map t'.name = (t.children p).toList.map t.name := by
  refine List.map_congr_left fun c hc => ?_
  have hlt : c < t.size := ht.lt_size (Array.mem_toList_iff.mp hc)
  rw [name_of_addChild hadd, if_neg (Nat.ne_of_lt hlt)]

/-- Adding a child keeps a tree well-formed: its name is new among its siblings, and its number is
the next one. -/
theorem addChild (ht : t.WellFormed) (hadd : t.addChild parent name = some (t', id)) :
    t'.WellFormed := by
  obtain ⟨hparent, hname, -, -⟩ := added_of_addChild hadd
  constructor
  case nonempty =>
    rw [size_of_addChild hadd]
    exact Nat.lt_succ_of_lt ht.nonempty
  case root =>
    rw [parent?_of_addChild hadd, if_neg (Nat.ne_of_lt ht.nonempty)]
    exact ht.root
  case parent =>
    intro i hi hroot
    rw [parent?_of_addChild hadd]
    by_cases hlast : i = t.size
    · exact ⟨parent, hlast ▸ hparent, if_pos hlast⟩
    · rw [size_of_addChild hadd] at hi
      rw [if_neg hlast]
      exact ht.parent i (by omega) hroot
  case mem_children_iff =>
    intro p c
    rw [children_of_addChild hadd, parent?_of_addChild hadd]
    -- the new node is a child of its parent, and it was a child of no node before
    have hnew (p : Nat) : t.size ∉ t.children p := fun hmem =>
      Nat.lt_irrefl _ (ht.lt_size hmem)
    by_cases hp : p = parent <;> by_cases hc : c = t.size
    · simp [hp, hc]
    · rw [if_pos hp, if_neg hc, Array.mem_push, or_iff_left hc, hp]
      exact ht.mem_children_iff parent c
    · rw [if_neg hp, if_pos hc, hc]
      exact iff_of_false (hnew p) fun h => hp (Option.some.inj h).symm
    · rw [if_neg hp, if_neg hc]
      exact ht.mem_children_iff p c
  case ascending =>
    intro p
    rw [children_of_addChild hadd]
    by_cases hp : p = parent
    · rw [if_pos hp, Array.toList_push, List.pairwise_append]
      refine ⟨ht.ascending parent, List.pairwise_singleton _ _, fun c hc last hlast => ?_⟩
      obtain rfl := List.mem_singleton.mp hlast
      exact ht.lt_size (Array.mem_toList_iff.mp hc)
    · rw [if_neg hp]
      exact ht.ascending p
  case names =>
    intro p
    rw [children_of_addChild hadd]
    by_cases hp : p = parent
    · have hlast : t'.name t.size = name := by rw [name_of_addChild hadd, if_pos rfl]
      rw [if_pos hp, Array.toList_push, List.map_append, ht.map_name_children hadd,
        List.map_singleton, hlast, List.nodup_append]
      refine ⟨ht.names parent, List.pairwise_singleton _ _, fun other hother _ hlast => ?_⟩
      obtain rfl := List.mem_singleton.mp hlast
      exact fun heq => hname (heq ▸ hother)
    · rw [if_neg hp, ht.map_name_children hadd]
      exact ht.names p

end WellFormed

/-- In the empty tree only the root has a child. -/
theorem children_empty (p : Nat) : empty.children p = if p = root then #[1] else #[] := by
  rcases p with _ | _ | p <;> simp [empty, children, node?, root]

/-- In the empty tree only the body has a parent. -/
theorem parent?_empty (c : Nat) : empty.parent? c = if c = 1 then some root else none := by
  rcases c with _ | _ | c <;> simp [empty, parent?, node?, root]

/-- The empty tree is well-formed. -/
theorem wellFormed_empty : empty.WellFormed := by
  constructor
  case nonempty => decide
  case root => rfl
  case parent =>
    intro id hid hroot
    have hone : id = 1 := by
      have hsize : empty.size = 2 := rfl
      simp only [Tree.root] at hroot
      omega
    exact ⟨root, hone ▸ Nat.one_pos, by rw [parent?_empty, if_pos hone]⟩
  case mem_children_iff =>
    intro p c
    rw [children_empty, parent?_empty]
    by_cases hp : p = root <;> by_cases hc : c = 1 <;> simp [hp, hc, eq_comm]
  case ascending =>
    intro p
    rw [children_empty]
    split <;> simp
  case names =>
    intro p
    rw [children_empty]
    split <;> simp

/-- Each call keeps a tree well-formed, refused ones included. -/
theorem WellFormed.after (ht : t.WellFormed) (call : Call) : (t.after call).WellFormed := by
  cases call with
  | addChild parent name =>
    rw [Tree.after]
    cases hadd : t.addChild parent name with
    | none => exact ht
    | some r => exact ht.addChild hadd
  | setAttribute id key value => exact ht.setAttribute id key value

/-- Calls one after the other keep a tree well-formed. -/
theorem WellFormed.afterAll (ht : t.WellFormed) (calls : List Call) :
    (t.afterAll calls).WellFormed := by
  induction calls generalizing t with
  | nil => exact ht
  | cons call calls ih => exact ih (ht.after call)

/-- Whatever is built by calls is well-formed. -/
theorem wellFormed_ofCalls (calls : List Call) : (ofCalls calls).WellFormed :=
  wellFormed_empty.afterAll calls

end Tree

end SmallC
