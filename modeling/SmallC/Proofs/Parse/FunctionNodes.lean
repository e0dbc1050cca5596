import SmallC.Proofs.Parse.Entering

/-!
# The nodes of functions

In a tree the node of a function is known by its two children: one for the parameters, and
the body. Where a tree shows a program, these nodes are those of the functions that the
program defines, each with the nodes of its parameters.
-/

namespace SmallC

open Outline

namespace Tree

/-! ## Functions in a tree -/

/-- A node has the two children of a function. -/
structure HasParts (t : Tree) (node arguments body : Nat) : Prop where
  children : t.children node = #[arguments, body]
  arguments : t.name arguments = "Arguments"
  body : t.name body = "Body"

/-- The bodies of a tree: that of the unit, and that of each function in a body. -/
inductive IsBody (t : Tree) : Nat → Prop
  | unit : t.IsBody unitBody
  | function {outer node arguments body : Nat} :
    t.IsBody outer → node ∈ t.children outer → t.HasParts node arguments body → t.IsBody body

/-- A node in a body with the two children of a function is a function. -/
structure IsFunction (t : Tree) (node arguments body : Nat) : Prop where
  parts : t.HasParts node arguments body
  inBody : ∃ outer, t.IsBody outer ∧ node ∈ t.children outer

/-- The nodes of a function are those that its entry in the list of functions tells: they
have its name, and one node for each of its parameters. -/
structure Describes (t : Tree) (node arguments body : Nat) (f : Function) : Prop where
  isFunction : t.IsFunction node arguments body
  name : t.name node = f.name
  parent : t.parent? body = some node
  count : (t.children arguments).size = f.parameters.length
  parameters : ∀ (i : Nat) (name : String) (type : TypeSpec),
    f.parameters[i]? = some (name, type) →
      ∃ id, (t.children arguments)[i]? = some id ∧ t.name id = s!"Argument{i}" ∧
        t.attribute? id "Name" = some (.text name) ∧
        t.attribute? id "Type" = some (.type type.base) ∧
        t.attribute? id "Ptr" = some (.flag type.isPointer)

variable {t : Tree} {node arguments arguments' body body' parent start index : Nat}

/-- A function has one list of arguments and one body. -/
theorem HasParts.unique (h : t.HasParts node arguments body)
    (h' : t.HasParts node arguments' body') : arguments = arguments' ∧ body = body' := by
  have hchildren : #[arguments, body] = #[arguments', body'] := h.children.symm.trans h'.children
  simpa using hchildren

/-- A body is that of one function only. -/
theorem Describes.name_eq {f g : Function} {node' : Nat}
    (hf : t.Describes node arguments body f) (hg : t.Describes node' arguments' body g) :
    f.name = g.name := by
  have hnode : node = node' := Option.some.inj (hf.parent.symm.trans hg.parent)
  rw [← hf.name, ← hg.name, hnode]

section

variable {i : Nat} {n : Node}

/-- The name of a node, as it is stored. -/
theorem name_of_node (h : t.nodes[i]? = some n) : t.name i = n.name := by
  simp [Tree.name, node?, h]

/-- The parent of a node, as it is stored. -/
theorem parent?_of_node (h : t.nodes[i]? = some n) : t.parent? i = n.parent := by
  simp [parent?, node?, h]

/-- The children of a node, as they are stored. -/
theorem children_of_node (h : t.nodes[i]? = some n) : t.children i = n.children := by
  simp [children, node?, h]

/-- An attribute of a node, as it is stored. -/
theorem attribute?_of_node (h : t.nodes[i]? = some n) (key : String) :
    t.attribute? i key = Attributes.get? key n.attributes := by
  simp [attribute?, node?, h]

end

/-! ## Functions of a program -/

/-- Each parameter has a node. -/
theorem length_argumentNumbers (start index : Nat) (ps : List Parameter) :
    (numbers start (argumentOutlines index ps)).length = ps.length := by
  induction ps generalizing start index with
  | nil => rfl
  | cons p ps ih => rw [argumentOutlines, numbers, List.length_cons, List.length_cons, ih]

/-- Each parameter has its node. -/
theorem exists_argument {ps : List Parameter} {p : Parameter} {i : Nat}
    (h : t.ShowsBelow parent start (argumentOutlines index ps)) (hp : ps[i]? = some p) :
    ∃ id, (numbers start (argumentOutlines index ps))[i]? = some id ∧
      t.nodes[id]? = some ⟨s!"Argument{index + i}", [("Name", .text p.name.lexeme),
        ("Ptr", .flag p.type.isPointer), ("Type", .type p.type.base)], #[], some parent⟩ := by
  induction ps generalizing start index i with
  | nil => cases hp
  | cons q ps ih =>
    obtain ⟨⟨hnode, -⟩, hbelow⟩ := h
    cases i with
    | zero =>
      obtain rfl : q = p := by simpa using hp
      exact ⟨start, rfl, hnode⟩
    | succ i =>
      obtain ⟨id, hid, hnode⟩ := ih hbelow hp
      refine ⟨id, hid, ?_⟩
      rwa [show index + (i + 1) = index + 1 + i by omega]

/-- The nodes of a function: its own, that of its parameters and theirs, and its body with
what is declared there. -/
structure HoldsFunction (t : Tree) (parent node : Nat) (h : FunctionHeader)
    (inside : List Outline) : Prop where
  function : t.nodes[node]? =
    some ⟨h.name.lexeme, [], #[node + 1, node + 2 + h.parameters.length], some parent⟩
  arguments : t.nodes[node + 1]? = some ⟨"Arguments", [],
    (numbers (node + 2) (argumentOutlines 0 h.parameters)).toArray, some node⟩
  parameters : t.ShowsBelow (node + 1) (node + 2) (argumentOutlines 0 h.parameters)
  body : t.nodes[node + 2 + h.parameters.length]? = some ⟨"Body", [],
    (numbers (node + 3 + h.parameters.length) inside).toArray, some node⟩
  inside : t.ShowsBelow (node + 2 + h.parameters.length) (node + 3 + h.parameters.length) inside

variable {h : FunctionHeader} {inside : List Outline}

/-- Where the tree shows the outline of a function it holds the nodes of the function. -/
theorem holdsFunction_of_shows (hshows : t.Shows (some parent) node (functionOutline h inside)) :
    t.HoldsFunction parent node h inside := by
  obtain ⟨hfunction, ⟨harguments, hparameters⟩, ⟨hbody, hinside⟩, -⟩ := hshows
  have hnode : node + 1 + (Outline.node "Arguments" [] (argumentOutlines 0 h.parameters)).size =
      node + 2 + h.parameters.length := by
    rw [Outline.size, Environment.sizes_argumentOutlines]
    omega
  have hnext : node + 2 + h.parameters.length + 1 = node + 3 + h.parameters.length := by omega
  simp only [numbers, hnode] at hfunction
  rw [hnode, hnext] at hbody hinside
  exact ⟨hfunction, harguments, hparameters, hbody, hinside⟩

namespace HoldsFunction

/-- The nodes of a function have the two parts of one: the arguments right behind its own node, the
body behind these. -/
theorem hasParts (hf : t.HoldsFunction parent node h inside) :
    t.HasParts node (node + 1) (node + 2 + h.parameters.length) where
  children := children_of_node hf.function
  arguments := name_of_node hf.arguments
  body := name_of_node hf.body

/-- The nodes of a function describe what its header says. -/
theorem describes (hf : t.HoldsFunction parent node h inside) (hparent : t.IsBody parent)
    (hnode : node ∈ t.children parent) :
    t.Describes node (node + 1) (node + 2 + h.parameters.length) (.ofDefinition h node) where
  isFunction := ⟨hf.hasParts, parent, hparent, hnode⟩
  name := name_of_node hf.function
  parent := parent?_of_node hf.body
  count := by
    rw [children_of_node hf.arguments, List.size_toArray, length_argumentNumbers]
    exact (List.length_map _).symm
  parameters i name type hi := by
    obtain ⟨p, hp, hpair⟩ : ∃ p, h.parameters[i]? = some p ∧
        (p.name.lexeme, p.type) = (name, type) := by
      simpa [Function.ofDefinition, Function.ofHeader] using hi
    cases hpair
    obtain ⟨id, hid, hargument⟩ := exists_argument hf.parameters hp
    rw [Nat.zero_add] at hargument
    refine ⟨id, ?_, name_of_node hargument, ?_⟩
    · rwa [children_of_node hf.arguments, List.getElem?_toArray]
    · simp only [attribute?_of_node hargument]
      exact ⟨rfl, rfl, rfl⟩

end HoldsFunction

/-! ### The functions of a program in a body -/

/-- The node after those of a function. -/
theorem next_definition (start : Nat) (h : FunctionHeader) (q : Program) :
    start + (functionOutline h (q.outlines 0)).size =
      start + 3 + h.parameters.length + q.nodeCount := by
  rw [Environment.size_functionOutline, Environment.sizes_outlines]
  omega

/-- The node after those of a block of assembly. -/
theorem next_assembly (start index : Nat) (sources : List Token) :
    start + (assemblyOutline index sources).size = start + 1 + sources.length := by
  rw [Environment.size_assemblyOutline, Nat.add_assoc]

/-- Every function that a program defines has its nodes. -/
theorem exists_describes {q : Program} {f : Function} {body : Nat} (hparent : t.IsBody parent)
    (hchildren : ∀ c ∈ numbers start (q.outlines index), c ∈ t.children parent)
    (hq : t.ShowsBelow parent start (q.outlines index)) (hf : f ∈ q.declared start)
    (hbody : f.body = some body) : ∃ node arguments, t.Describes node arguments body f := by
  -- `parent` may have other children too, so that the rest of a body is a case of this as well
  induction q generalizing parent start index with
  | empty => cases hf
  | «variable» type name initializer rest ih =>
    exact ih hparent (fun c hc => hchildren c (List.mem_cons_of_mem _ hc)) hq.2 hf
  | prototype header rest ih =>
    rcases List.mem_cons.mp hf with rfl | hf
    · cases hbody
    · exact ih hparent hchildren hq hf
  | definition header inner rest ihinner ih =>
    obtain ⟨hfunction, hrest⟩ := hq
    obtain ⟨hnode, hlater⟩ := List.forall_mem_cons.mp hchildren
    rw [next_definition] at hrest hlater
    have hnodes := holdsFunction_of_shows hfunction
    have hinner : t.IsBody (start + 2 + header.parameters.length) :=
      .function hparent hnode hnodes.hasParts
    rcases List.mem_append.mp hf with hf | hf
    · rcases List.mem_cons.mp hf with rfl | hf
      · cases hbody
        exact ⟨_, _, hnodes.describes hparent hnode⟩
      · refine ihinner hinner (fun c hc => ?_) hnodes.inside hf
        rw [children_of_node hnodes.body]
        exact List.mem_toArray.mpr hc
    · exact ih hparent hlater hrest hf
  | assembly sources rest ih =>
    obtain ⟨-, hrest⟩ := hq
    obtain ⟨-, hlater⟩ := List.forall_mem_cons.mp hchildren
    rw [next_assembly] at hrest hlater
    exact ih hparent hlater hrest hf

/-- A block of assembly has no children like those of a function. -/
theorem not_hasParts_assembly {sources : List Token}
    (hshows : t.Shows (some parent) node (assemblyOutline index sources)) :
    ¬ t.HasParts node arguments body := by
  intro hparts
  obtain ⟨hnode, hsources⟩ := hshows
  have hchildren := hparts.children
  rw [children_of_node hnode] at hchildren
  cases sources with
  | nil => cases hchildren
  | cons source sources =>
    obtain ⟨⟨hsource, -⟩, -⟩ := hsources
    have hfirst : node + 1 = arguments := by
      have := congrArg (·[0]?) hchildren
      simpa [sourceOutlines, numbers] using this
    have hname : s!"SourceBlock{0}" = "Arguments" := by
      rw [← hparts.arguments, ← hfirst, name_of_node hsource]
    exact absurd hname (by decide)

/-- Only the definitions of a program have nodes like those of functions. -/
theorem exists_definition_of_hasParts {q : Program}
    (hq : t.ShowsBelow parent start (q.outlines index))
    (hnode : node ∈ numbers start (q.outlines index)) (hparts : t.HasParts node arguments body) :
    ∃ h inner, t.HoldsFunction parent node h (Program.outlines 0 inner) ∧
      .ofDefinition h node ∈ q.declared start ∧
      (∀ f ∈ inner.declared (node + 3 + h.parameters.length), f ∈ q.declared start) ∧
      ∀ v ∈ inner.allVariables, v ∈ q.allVariables := by
  induction q generalizing start index with
  | empty => cases hnode
  | «variable» type name initializer rest ih =>
    obtain ⟨⟨hvariable, -⟩, hrest⟩ := hq
    rcases List.mem_cons.mp hnode with rfl | hnode
    · have hchildren := hparts.children
      rw [children_of_node hvariable] at hchildren
      cases hchildren
    · obtain ⟨h, inner, hholds, hdeclared, hinner, hvariables⟩ := ih hrest hnode
      exact ⟨h, inner, hholds, hdeclared, hinner,
        fun v hv => List.mem_cons_of_mem _ (hvariables v hv)⟩
  | prototype header rest ih =>
    obtain ⟨h, inner, hholds, hdeclared, hinner, hvariables⟩ := ih hq hnode
    exact ⟨h, inner, hholds, List.mem_cons_of_mem _ hdeclared,
      fun f hf => List.mem_cons_of_mem _ (hinner f hf), hvariables⟩
  | definition header inner rest _ ih =>
    obtain ⟨hfunction, hrest⟩ := hq
    rcases List.mem_cons.mp hnode with rfl | hnode
    · exact ⟨header, inner, holdsFunction_of_shows hfunction, List.mem_cons_self,
        fun f hf => List.mem_append_left _ (List.mem_cons_of_mem _ hf),
        fun v hv => List.mem_append_left _ hv⟩
    · rw [next_definition] at hrest hnode
      obtain ⟨h, inner', hholds, hdeclared, hinner, hvariables⟩ := ih hrest hnode
      exact ⟨h, inner', hholds, List.mem_append_right _ hdeclared,
        fun f hf => List.mem_append_right _ (hinner f hf),
        fun v hv => List.mem_append_right _ (hvariables v hv)⟩
  | assembly sources rest ih =>
    obtain ⟨hassembly, hrest⟩ := hq
    rcases List.mem_cons.mp hnode with rfl | hnode
    · exact absurd hparts (not_hasParts_assembly hassembly)
    · rw [next_assembly] at hrest hnode
      exact ih hrest hnode

/-! ## The functions of a whole program -/

section

variable {p : Program}

/-- What is in the body of the unit. -/
theorem holdsUnit (hp : t.nodes.toList = p.outline.nodes none 0) :
    t.children unitBody = (numbers 2 (p.outlines 0)).toArray ∧
      t.ShowsBelow unitBody 2 (p.outlines 0) := by
  obtain ⟨-, ⟨hbody, hinside⟩, -⟩ := shows_root hp
  exact ⟨children_of_node hbody, hinside⟩

/-- In every body there is a program, whose functions and variables are among those of the
whole. -/
theorem IsBody.exists_program (hp : t.nodes.toList = p.outline.nodes none 0)
    (hbody : t.IsBody body) :
    ∃ q : Program, t.children body = (numbers (body + 1) (q.outlines 0)).toArray ∧
      t.ShowsBelow body (body + 1) (q.outlines 0) ∧
      (∀ f ∈ q.declared (body + 1), f ∈ p.declared 2) ∧
      ∀ v ∈ q.allVariables, v ∈ p.allVariables := by
  -- the nodes in a body come right behind its own, in that of the unit and in all others
  induction hbody with
  | unit =>
    obtain ⟨hchildren, hshows⟩ := holdsUnit hp
    exact ⟨p, hchildren, hshows, fun f hf => hf, fun v hv => hv⟩
  | @function outer node arguments body _ hnode hparts ih =>
    obtain ⟨q, hchildren, hq, hdeclared, hvariables⟩ := ih
    rw [hchildren, List.mem_toArray] at hnode
    obtain ⟨h, inner, hholds, -, hinner, hinnerVariables⟩ :=
      exists_definition_of_hasParts hq hnode hparts
    obtain ⟨-, rfl⟩ := hparts.unique hholds.hasParts
    have hnext : node + 2 + h.parameters.length + 1 = node + 3 + h.parameters.length := by omega
    rw [hnext]
    exact ⟨inner, children_of_node hholds.body, hholds.inside,
      fun f hf => hdeclared f (hinner f hf), fun v hv => hvariables v (hinnerVariables v hv)⟩

/-- A function in the tree of a program is one that the program defines. -/
theorem IsFunction.exists_declared (hp : t.nodes.toList = p.outline.nodes none 0)
    (hfunction : t.IsFunction node arguments body) :
    ∃ f ∈ p.declared 2, f.body = some body ∧ f.name = t.name node := by
  obtain ⟨hparts, outer, houter, hnode⟩ := hfunction
  obtain ⟨q, hchildren, hq, hdeclared, -⟩ := houter.exists_program hp
  rw [hchildren, List.mem_toArray] at hnode
  obtain ⟨h, inner, hholds, hdefinition, -⟩ := exists_definition_of_hasParts hq hnode hparts
  obtain ⟨-, rfl⟩ := hparts.unique hholds.hasParts
  exact ⟨_, hdeclared _ hdefinition, rfl, (name_of_node hholds.function).symm⟩

/-- A function that a program defines is one in its tree. -/
theorem exists_describes_of_mem_declared {f : Function}
    (hp : t.nodes.toList = p.outline.nodes none 0) (hf : f ∈ p.declared 2)
    (hbody : f.body = some body) : ∃ node arguments, t.Describes node arguments body f := by
  obtain ⟨hchildren, hshows⟩ := holdsUnit hp
  refine exists_describes .unit (fun c hc => ?_) hshows hf hbody
  rw [hchildren]
  exact List.mem_toArray.mpr hc

end

end Tree

end SmallC
