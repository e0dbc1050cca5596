import Mathlib.Logic.ExistsUnique
import SmallC.Proofs.Parse.Agreement

/-!
# The shape of a declaration tree

Whatever tokens are parsed, and whatever faults there are, the tree that is returned has one
shape: below the unit and its body there are functions, variables and blocks of assembly, each
with the names, attributes and children that it has to have, down to the leaves.
-/

namespace SmallC

open Outline

/-- A constant is one of a type. A `bool` is false, and there is no constant of type `void`. -/
def Constant.IsOf (base : Primitive) : Constant → Prop
  | .int _ => base = .int
  | .float _ => base = .float
  | .char _ => base = .char
  | .short _ => base = .short
  | .bool b => base = .bool ∧ b = false

/-- The constant that a literal gives is one of the type that asks for it. -/
theorem Constant.isOf_ofLiteral {base : Primitive} {literal : Literal} {c : Constant}
    (h : Constant.ofLiteral base literal = some c) : c.IsOf base := by
  cases base <;> cases h <;> simp [Constant.IsOf]

/-- What a child of a body is. -/
inductive ChildForm where
  | function
  | variable
  | assembly
  deriving DecidableEq, Repr

namespace Tree

/-- The node `id` is a function in the body `body`: it has two children, one with a leaf for
each parameter, and its own body. -/
def IsFunctionChild (t : Tree) (body id : Nat) : Prop :=
  ∃ name arguments inner leaves inside,
    t.node? id = some ⟨name, [], #[arguments, inner], some body⟩ ∧
    t.node? arguments = some ⟨"Arguments", [], leaves, some id⟩ ∧
    (∀ (i leaf : Nat), leaves[i]? = some leaf → ∃ (name : String) (type : TypeSpec),
      t.node? leaf = some ⟨s!"Argument{i}", [("Name", .text name), ("Ptr", .flag type.isPointer),
        ("Type", .type type.base)], #[], some arguments⟩) ∧
    t.node? inner = some ⟨"Body", [], inside, some id⟩

/-- The node `id`, the `k`-th one in the body `body`, is a variable: a leaf with its type,
which is not `void`, and possibly with a constant of this type. -/
def IsVariableChild (t : Tree) (body k id : Nat) : Prop :=
  ∃ (type : TypeSpec) (value : Option Constant), type.isVoid = false ∧
    (∀ c ∈ value, c.IsOf type.base) ∧
    t.node? id = some ⟨s!"Variable{k}",
      [("Ptr", .flag type.isPointer), ("Type", .type type.base)] ++
        value.toList.map fun c => ("Value", .constant c), #[], some body⟩

/-- The node `id`, the `k`-th one in the body `body`, is a block of assembly: it has a leaf for
each of its strings. -/
def IsAssemblyChild (t : Tree) (body k id : Nat) : Prop :=
  ∃ leaves, t.node? id = some ⟨s!"Assembly{k}", [], leaves, some body⟩ ∧
    ∀ (i leaf : Nat), leaves[i]? = some leaf → ∃ source : String,
      t.node? leaf = some ⟨s!"SourceBlock{i}", [("Source", .text source)], #[], some id⟩

/-- The node `id`, the `k`-th one in the body `body`, is of a form. -/
def HasForm (t : Tree) (body k id : Nat) : ChildForm → Prop
  | .function => t.IsFunctionChild body id
  | .variable => t.IsVariableChild body k id
  | .assembly => t.IsAssemblyChild body k id

/-- The root is the unit, which has nothing but a body, and every child of a body is either a
function or a variable or a block of assembly. -/
structure WellShaped (t : Tree) : Prop where
  /-- The unit. -/
  unit : t.node? root = some ⟨"Unit", [], #[unitBody], none⟩
  /-- Its body. -/
  unitBody : ∃ children, t.node? unitBody = some ⟨"Body", [], children, some root⟩
  /-- What is in a body. -/
  children : ∀ body, t.IsBody body → ∀ k id, (t.children body)[k]? = some id →
    ∃! form, t.HasForm body k id form

variable {t : Tree} {parent start index k id : Nat}

/-! ## One form only -/

/-- A function is no variable: it has a child. -/
theorem not_isVariableChild_of_function (h : t.IsFunctionChild parent id) :
    ¬ t.IsVariableChild parent k id := by
  rintro ⟨type, value, -, -, hnode⟩
  obtain ⟨name, arguments, inner, leaves, inside, hfunction, -⟩ := h
  rw [hfunction] at hnode
  simp at hnode

/-- The children of a function are not called like the strings of assembly. -/
theorem not_isAssemblyChild_of_function (h : t.IsFunctionChild parent id) :
    ¬ t.IsAssemblyChild parent k id := by
  rintro ⟨leaves, hnode, hleaves⟩
  obtain ⟨name, arguments, inner, leaves', inside, hfunction, harguments, -⟩ := h
  rw [hfunction] at hnode
  obtain rfl : #[arguments, inner] = leaves := congrArg Node.children (Option.some.inj hnode)
  obtain ⟨source, hleaf⟩ := hleaves 0 arguments rfl
  rw [harguments] at hleaf
  have hname : "Arguments" = s!"SourceBlock{0}" := congrArg Node.name (Option.some.inj hleaf)
  exact absurd hname (by decide)

/-- A variable is no block of assembly: it has attributes. -/
theorem not_isAssemblyChild_of_variable (h : t.IsVariableChild parent k id) :
    ¬ t.IsAssemblyChild parent k id := by
  rintro ⟨leaves, hnode, -⟩
  obtain ⟨type, value, -, -, hvariable⟩ := h
  rw [hvariable] at hnode
  simp at hnode

/-- A node is of one form at most. -/
theorem HasForm.unique {form form' : ChildForm} (h : t.HasForm parent k id form)
    (h' : t.HasForm parent k id form') : form = form' := by
  cases form <;> cases form' <;> try rfl
  · exact absurd h' (not_isVariableChild_of_function h)
  · exact absurd h' (not_isAssemblyChild_of_function h)
  · exact absurd h (not_isVariableChild_of_function h')
  · exact absurd h' (not_isAssemblyChild_of_variable h)
  · exact absurd h (not_isAssemblyChild_of_function h')
  · exact absurd h (not_isAssemblyChild_of_variable h')

/-! ## The nodes of a program -/

/-- The outline of a variable is shown as a variable, with its constant if it has one. -/
theorem isVariableChild_of_shows {type : TypeSpec} {initializer : Option Token}
    (hvoid : ¬ type.isVoid)
    (hshows : t.Shows (some parent) id (variableOutline k type initializer)) :
    t.IsVariableChild parent k id := by
  refine ⟨type, initialConstant type initializer, by simpa using hvoid, fun c hc => ?_, hshows.1⟩
  obtain ⟨literal, -, hliteral⟩ := Option.bind_eq_some_iff.mp hc
  exact Constant.isOf_ofLiteral hliteral

/-- The outlines of strings are shown as leaves, each with its number and its text. -/
theorem exists_source {sources : List Token} {i leaf : Nat}
    (hshows : t.ShowsBelow parent start (sourceOutlines index sources))
    (hleaf : (numbers start (sourceOutlines index sources))[i]? = some leaf) :
    ∃ source : String, t.node? leaf =
      some ⟨s!"SourceBlock{index + i}", [("Source", .text source)], #[], some parent⟩ := by
  induction sources generalizing start index i with
  | nil => cases hleaf
  | cons source sources ih =>
    obtain ⟨⟨hnode, -⟩, hbelow⟩ := hshows
    cases i with
    | zero =>
      obtain rfl : start = leaf := by simpa [sourceOutlines, numbers] using hleaf
      exact ⟨source.lexeme, hnode⟩
    | succ i =>
      rw [Nat.add_comm i 1, ← Nat.add_assoc]
      exact ih hbelow hleaf

/-- The outline of a block of assembly is shown as one. -/
theorem isAssemblyChild_of_shows {sources : List Token}
    (hshows : t.Shows (some parent) id (assemblyOutline k sources)) :
    t.IsAssemblyChild parent k id := by
  obtain ⟨hnode, hbelow⟩ := hshows
  refine ⟨_, hnode, fun i leaf hleaf => ?_⟩
  rw [List.getElem?_toArray] at hleaf
  obtain ⟨source, hsource⟩ := exists_source hbelow hleaf
  rw [Nat.zero_add] at hsource
  exact ⟨source, hsource⟩

/-- The nodes of a function are shown as a function. -/
theorem HoldsFunction.isFunctionChild {h : FunctionHeader} {inside : List Outline}
    (hf : t.HoldsFunction parent id h inside) : t.IsFunctionChild parent id := by
  refine ⟨_, _, _, _, _, hf.function, hf.arguments, fun i leaf hleaf => ?_, hf.body⟩
  rw [List.getElem?_toArray] at hleaf
  -- there is a leaf for each parameter, so that this one is the leaf of some parameter
  have hi : i < h.parameters.length := by
    rw [← length_argumentNumbers (id + 2) 0 h.parameters]
    exact (List.getElem?_eq_some_iff.mp hleaf).1
  obtain ⟨leaf', hleaf', hnode⟩ := exists_argument hf.parameters (List.getElem?_eq_getElem hi)
  obtain rfl : leaf = leaf' := Option.some.inj (hleaf.symm.trans hleaf')
  rw [Nat.zero_add] at hnode
  exact ⟨_, h.parameters[i].type, hnode⟩

/-- Each node of a program in a body is of one of the forms. Its number in the body is that of
the nodes before it. -/
theorem exists_hasForm {q : Program} (hq : t.ShowsBelow parent start (q.outlines index))
    (htypes : ∀ v ∈ q.allVariables, ¬ v.1.isVoid)
    (hid : (numbers start (q.outlines index))[k]? = some id) :
    ∃ form, t.HasForm parent (index + k) id form := by
  induction q generalizing start index k with
  | empty => cases hid
  | «variable» type name initializer rest ih =>
    obtain ⟨hvoid, htypes⟩ := List.forall_mem_cons.mp htypes
    obtain ⟨hvariable, hrest⟩ := hq
    cases k with
    | zero =>
      obtain rfl : start = id := by simpa [Program.outlines, numbers] using hid
      exact ⟨.variable, isVariableChild_of_shows hvoid hvariable⟩
    | succ k =>
      rw [Nat.add_comm k 1, ← Nat.add_assoc]
      exact ih hrest htypes hid
  | prototype header rest ih => exact ih hq htypes hid
  | definition header inner rest _ ih =>
    obtain ⟨hfunction, hrest⟩ := hq
    cases k with
    | zero =>
      obtain rfl : start = id := by simpa [Program.outlines, numbers] using hid
      exact ⟨.function, (holdsFunction_of_shows hfunction).isFunctionChild⟩
    | succ k =>
      rw [Nat.add_comm k 1, ← Nat.add_assoc]
      exact ih hrest (fun v hv => htypes v (List.mem_append_right _ hv)) hid
  | assembly sources rest ih =>
    obtain ⟨hassembly, hrest⟩ := hq
    cases k with
    | zero =>
      obtain rfl : start = id := by simpa [Program.outlines, numbers] using hid
      exact ⟨.assembly, isAssemblyChild_of_shows hassembly⟩
    | succ k =>
      rw [Nat.add_comm k 1, ← Nat.add_assoc]
      exact ih hrest htypes hid

/-- The tree of a program in which no variable is `void` is of the shape. -/
theorem wellShaped_of_program {p : Program} (hp : t.nodes.toList = p.outline.nodes none 0)
    (htypes : ∀ v ∈ p.allVariables, ¬ v.1.isVoid) : t.WellShaped where
  unit := (shows_root hp).1
  unitBody := ⟨_, (shows_root hp).2.1.1⟩
  children body hbody k id hid := by
    obtain ⟨q, hchildren, hq, -, hvariables⟩ := hbody.exists_program hp
    rw [hchildren, List.getElem?_toArray] at hid
    obtain ⟨form, hform⟩ := exists_hasForm hq (fun v hv => htypes v (hvariables v hv)) hid
    rw [Nat.zero_add] at hform
    exact ⟨form, hform, fun form' hform' => hform'.unique hform⟩

end Tree

/-- The tree of any tokens is of the shape, whether there are faults or not. -/
theorem Parse.ofTokens_wellShaped (tokens : List Token) : (ofTokens tokens).tree.WellShaped := by
  obtain ⟨entered, e, hreach, htree, -⟩ := exists_reaches tokens
  obtain ⟨p, hp, hnodes, -⟩ := Environment.exists_lawful_of_enters hreach.enters
  rw [htree]
  exact Tree.wellShaped_of_program hnodes hp.types

end SmallC
