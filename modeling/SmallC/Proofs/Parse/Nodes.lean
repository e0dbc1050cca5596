import SmallC.Proofs.Parse.Program
import SmallC.Proofs.Tree.Graft

/-!
# The nodes of declarations

Each declaration adds its nodes one by one. Together they are the outline that the
declaration describes, put below the body that it stands in; and only the name of the
outermost one can be taken already.
-/

namespace SmallC

open Outline

/-- Names that end in a number tell the number. -/
theorem numbered_injective {stem : String} {m n : Nat} (h : s!"{stem}{m}" = s!"{stem}{n}") :
    m = n := by
  have hrepr : m.repr = n.repr := (String.append_right_inj stem).mp h
  have hdigits : Nat.toDigits 10 m = Nat.toDigits 10 n := by
    rw [← Nat.toList_repr, ← Nat.toList_repr, hrepr]
  rw [← Nat.ofDigitChars_ten_toDigits (n := m), hdigits, Nat.ofDigitChars_ten_toDigits]

/-- The names of one stem that are among some names have numbers below a bound. -/
def NumberedBelow (stem : String) (bound : Nat) (names : List String) : Prop :=
  ∀ i, s!"{stem}{i}" ∈ names → i < bound

namespace NumberedBelow

variable {stem : String} {bound : Nat} {names : List String}

/-- No names are numbered below any bound. -/
theorem nil : NumberedBelow stem bound [] := fun _ h => nomatch h

/-- The next number is not taken yet. -/
theorem not_mem (h : NumberedBelow stem bound names) : s!"{stem}{bound}" ∉ names :=
  fun hmem => Nat.lt_irrefl _ (h bound hmem)

/-- The name with the next number may be added. -/
theorem append (h : NumberedBelow stem bound names) :
    NumberedBelow stem (bound + 1) (names ++ [s!"{stem}{bound}"]) := by
  intro i hi
  rcases List.mem_append.mp hi with hi | hi
  · exact Nat.lt_succ_of_lt (h i hi)
  · obtain rfl := numbered_injective (List.mem_singleton.mp hi)
    exact Nat.lt_succ_self i

end NumberedBelow

namespace Environment

/-! ## Variables -/

/-- A variable that got its node had a free name. -/
theorem not_mem_of_variableNode {tree tree' : Tree} {body count : Nat} {v : Variable}
    (hbody : body < tree.nodes.size) (h : variableNode tree body count v = some tree') :
    s!"Variable{count}" ∉ childNames tree.nodes body := by
  intro hmem
  rw [variableNode, (Tree.addChild_eq_none_iff hbody).mpr hmem] at h
  cases h

/-- A variable whose name is free gets a node with its type, and with its constant if it has one. -/
theorem exists_variableNode {tree : Tree} {body count : Nat} (name : String) (type : TypeSpec)
    (initializer : Option Token) (hbody : body < tree.nodes.size)
    (hname : s!"Variable{count}" ∉ childNames tree.nodes body) :
    ∃ tree', variableNode tree body count ⟨name, type, initialConstant type initializer⟩ =
        some tree' ∧
      tree'.nodes = graft tree.nodes body [variableOutline count type initializer] := by
  obtain ⟨t₁, hadd, h₁⟩ := Tree.exists_addChild hbody hname
  have h₂ := Tree.nodes_setAttribute h₁ "Type" (.type type.base)
  have h₃ := Tree.nodes_setAttribute h₂ "Ptr" (.flag type.isPointer)
  unfold variableNode variableOutline
  rw [hadd]
  cases initialConstant type initializer with
  | none => exact ⟨_, rfl, h₃⟩
  | some value => exact ⟨_, rfl, Tree.nodes_setAttribute h₃ "Value" (.constant value)⟩

/-! ## Strings and parameters -/

/-- Strings of assembly get their nodes one after the other, if their numbers are free. -/
theorem exists_sourceNodes {tree : Tree} {block index : Nat} (ts : List Token)
    (hblock : block < tree.nodes.size) (htree : Bounded tree.nodes)
    (hnames : NumberedBelow "SourceBlock" index (childNames tree.nodes block)) :
    ∃ tree', sourceNodes block index tree ts = some tree' ∧
      tree'.nodes = graft tree.nodes block (sourceOutlines index ts) := by
  induction ts generalizing tree index with
  | nil => exact ⟨tree, rfl, graft_nil.symm⟩
  | cons t ts ih =>
    obtain ⟨t₁, hadd, h₁⟩ := Tree.exists_addChild hblock hnames.not_mem
    have h₂ := Tree.nodes_setAttribute h₁ "Source" (.text t.lexeme)
    have hnames₂ : NumberedBelow "SourceBlock" (index + 1)
        (childNames (t₁.setAttribute tree.nodes.size "Source" (.text t.lexeme)).nodes block) := by
      rw [h₂, childNames_graft_self htree hblock]
      exact hnames.append
    obtain ⟨tree', hrest, htree'⟩ :=
      ih (by rw [h₂, size_graft]; omega) (by rw [h₂]; exact htree.graft) hnames₂
    rw [h₂, graft_graft hblock] at htree'
    exact ⟨tree', by rw [sourceNodes, hadd]; exact hrest, htree'⟩

/-- Parameters get their nodes one after the other, if their numbers are free. -/
theorem exists_argumentNodes {tree : Tree} {list index : Nat} (ps : List Parameter)
    (hlist : list < tree.nodes.size) (htree : Bounded tree.nodes)
    (hnames : NumberedBelow "Argument" index (childNames tree.nodes list)) :
    ∃ tree', argumentNodes list index tree (ps.map fun p => (p.name.lexeme, p.type)) =
        some tree' ∧
      tree'.nodes = graft tree.nodes list (argumentOutlines index ps) := by
  induction ps generalizing tree index with
  | nil => exact ⟨tree, rfl, graft_nil.symm⟩
  | cons p ps ih =>
    obtain ⟨t₁, hadd, h₁⟩ := Tree.exists_addChild hlist hnames.not_mem
    have h₂ := Tree.nodes_setAttribute h₁ "Name" (.text p.name.lexeme)
    have h₃ := Tree.nodes_setAttribute h₂ "Type" (.type p.type.base)
    have h₄ := Tree.nodes_setAttribute h₃ "Ptr" (.flag p.type.isPointer)
    generalize ht₄ : ((t₁.setAttribute _ "Name" _).setAttribute _ "Type" _).setAttribute _ "Ptr" _ =
      t₄ at h₄
    have hnames₄ : NumberedBelow "Argument" (index + 1) (childNames t₄.nodes list) := by
      rw [h₄, childNames_graft_self htree hlist]
      exact hnames.append
    obtain ⟨tree', hrest, htree'⟩ :=
      ih (by rw [h₄, size_graft]; omega) (by rw [h₄]; exact htree.graft) hnames₄
    rw [h₄, graft_graft hlist] at htree'
    refine ⟨tree', ?_, htree'⟩
    rw [List.map_cons, argumentNodes, hadd]
    simp only [ht₄]
    exact hrest

/-- Each parameter is one node. -/
theorem sizes_argumentOutlines (index : Nat) (ps : List Parameter) :
    sizes (argumentOutlines index ps) = ps.length := by
  induction ps generalizing index with
  | nil => rfl
  | cons p ps ih => simp [argumentOutlines, sizes, size, ih, Nat.add_comm]

/-- Each string is one node. -/
theorem sizes_sourceOutlines (index : Nat) (ts : List Token) :
    sizes (sourceOutlines index ts) = ts.length := by
  induction ts generalizing index with
  | nil => rfl
  | cons t ts ih => simp [sourceOutlines, sizes, size, ih, Nat.add_comm]

/-- A function is its node, the two below it, its parameters, and what is inside of its body. -/
theorem size_functionOutline (h : FunctionHeader) (inside : List Outline) :
    (functionOutline h inside).size = 3 + h.parameters.length + sizes inside := by
  simp only [functionOutline, size, sizes, sizes_argumentOutlines]
  omega

/-- A block of assembly is its node and those of its strings. -/
theorem size_assemblyOutline (index : Nat) (sources : List Token) :
    (assemblyOutline index sources).size = 1 + sources.length := by
  rw [assemblyOutline, size, sizes_sourceOutlines, Nat.add_comm]

/-! ## Functions -/

/-- A function that got its nodes had a free name. -/
theorem not_mem_of_functionNodes {tree : Tree} {body : Nat} {f : Function} {r : Tree × Nat}
    (hbody : body < tree.nodes.size) (h : functionNodes tree body f = some r) :
    f.name ∉ childNames tree.nodes body := by
  intro hmem
  rw [functionNodes, (Tree.addChild_eq_none_iff hbody).mpr hmem] at h
  cases h

/-- A function whose name is free gets its nodes, the last of which is its empty body. -/
theorem exists_functionNodes {tree : Tree} {body : Nat} {h : FunctionHeader}
    (hbody : body < tree.nodes.size) (htree : Bounded tree.nodes)
    (hname : h.name.lexeme ∉ childNames tree.nodes body) :
    ∃ tree', functionNodes tree body (Function.ofHeader h) =
        some (tree', tree.nodes.size + 2 + h.parameters.length) ∧
      tree'.nodes = graft tree.nodes body [functionOutline h []] := by
  obtain ⟨t₁, hadd₁, h₁⟩ := Tree.exists_addChild hbody hname
  have hsize₁ : t₁.nodes.size = tree.nodes.size + 1 := by rw [h₁, size_graft_leaf]
  have htree₁ : Bounded t₁.nodes := by
    rw [h₁]
    exact htree.graft
  have hnode₁ : tree.nodes.size < t₁.nodes.size := by omega
  have hnames₁ : childNames t₁.nodes tree.nodes.size = [] := by
    rw [h₁, childNames_graft_new htree]
    rfl
  -- the second node is that of the parameters, which come below it
  obtain ⟨t₂, hadd₂, h₂⟩ := Tree.exists_addChild hnode₁
    (show "Arguments" ∉ childNames t₁.nodes tree.nodes.size by rw [hnames₁]; simp)
  have hlist₂ : t₁.nodes.size < t₂.nodes.size := by rw [h₂, size_graft_leaf]; omega
  have htree₂ : Bounded t₂.nodes := by
    rw [h₂]
    exact htree₁.graft
  have hnames₂ : NumberedBelow "Argument" 0 (childNames t₂.nodes t₁.nodes.size) := by
    rw [h₂, childNames_graft_new htree₁]
    exact .nil
  obtain ⟨t₃, hadd₃, h₃⟩ := exists_argumentNodes h.parameters hlist₂ htree₂ hnames₂
  rw [h₂, graft_leaf] at h₃
  -- the body comes after them
  have hsize₃ : t₃.nodes.size = tree.nodes.size + 2 + h.parameters.length := by
    rw [h₃, size_graft, sizes, size, sizes_argumentOutlines, sizes]
    omega
  have hnames₃ : childNames t₃.nodes tree.nodes.size = ["Arguments"] := by
    rw [h₃, childNames_graft_self htree₁ hnode₁, hnames₁]
    rfl
  obtain ⟨t₄, hadd₄, h₄⟩ := Tree.exists_addChild (show tree.nodes.size < t₃.nodes.size by omega)
    (show "Body" ∉ childNames t₃.nodes tree.nodes.size by rw [hnames₃]; decide)
  rw [h₃, graft_graft hnode₁, h₁, graft_leaf] at h₄
  refine ⟨t₄, ?_, h₄⟩
  have hparameters : (Function.ofHeader h).parameters =
      h.parameters.map fun p => (p.name.lexeme, p.type) := rfl
  have hname₁ : (Function.ofHeader h).name = h.name.lexeme := rfl
  simp only [functionNodes, hname₁, hparameters, hadd₁, hadd₂, hadd₃, hadd₄, hsize₃,
    Option.bind_eq_bind, Option.bind_some]

end Environment

end SmallC
