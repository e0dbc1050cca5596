import SmallC.Proofs.Parse.Context
import SmallC.Proofs.Parse.Nodes

/-!
# Entering variables and assembly

A declaration is entered exactly if the rules allow it, and then the environment has
grown by what the declaration describes.
-/

namespace SmallC

open Outline

namespace Environment

/-- The tree is one, and the present body is in it. -/
structure Valid (e : Environment) : Prop where
  bounded : Bounded e.tree.nodes
  body_lt : e.body < e.tree.nodes.size

/-- What the rules ask about an environment. -/
def context (e : Environment) : Context where
  scope := e.scope.map (·.name)
  outer := e.outerScopes.flatten.map (·.name)
  siblings := childNames e.tree.nodes e.body
  functions := e.functions.toList
  next := e.tree.nodes.size

/-- An environment has grown by what a program describes. -/
structure Grown (e : Environment) (p : Program) (e' : Environment) : Prop where
  nodes : e'.tree.nodes = graft e.tree.nodes e.body (p.outlines e.childCount)
  body : e'.body = e.body
  scope : e'.scope.map (·.name) = p.variableNames.reverse ++ e.scope.map (·.name)
  outerScopes : e'.outerScopes = e.outerScopes
  functions : e'.functions.toList =
    (p.declared e.tree.nodes.size).foldl (fun table f => f.place table) e.functions.toList

variable {e e' e'' : Environment} {p : Program}

/-- There are as many children in a body as there are names of them. -/
theorem childCount_eq (e : Environment) : e.childCount = e.context.siblings.length :=
  e.tree.size_children e.body

/-- Growing by a program leaves the tree as it should be, and the present body in it. -/
theorem Grown.valid (h : Grown e p e') (he : e.Valid) : e'.Valid := by
  constructor
  · rw [h.nodes]
    exact he.bounded.graft
  · have hlt := he.body_lt
    rw [h.nodes, h.body, size_graft]
    omega

/-- The program and its outlines count the same nodes. -/
theorem sizes_outlines (index : Nat) (p : Program) : sizes (p.outlines index) = p.nodeCount := by
  induction p generalizing index with
  | empty => rfl
  | «variable» type name initializer rest ih =>
    simp [Program.outlines, sizes, ih, variableOutline, size, Program.nodeCount]
  | prototype h rest ih => exact ih index
  | definition h body rest ihbody ih =>
    rw [Program.outlines, sizes, size_functionOutline, ihbody, ih, Program.nodeCount]
  | assembly sources rest ih =>
    rw [Program.outlines, sizes, size_assemblyOutline, ih, Program.nodeCount]

/-- What the rules ask about an environment that has grown is what they ask about its context after
the program. -/
theorem Grown.context (h : Grown e p e') (he : e.Valid) : e'.context = e.context.after p := by
  have hsiblings : childNames (graft e.tree.nodes e.body (p.outlines e.childCount)) e.body =
      childNames e.tree.nodes e.body ++ (p.outlines e.childCount).map Outline.name :=
    childNames_graft_self he.bounded he.body_lt
  unfold Environment.context Context.after
  rw [h.scope, h.outerScopes, h.functions, h.nodes, h.body, hsiblings, size_graft, sizes_outlines,
    childCount_eq]
  rfl

/-- A constant is given exactly if the initializer is allowed, and it is the one that the program
describes. -/
theorem initialValue_eq_ok_iff {type : TypeSpec} {name : String} {initializer : Option Token}
    {value : Option Constant} :
    initialValue type name initializer = .ok value ↔
      (∀ t ∈ initializer, t.Initializes type) ∧ value = initialConstant type initializer := by
  cases initializer with
  | none => simp [initialValue, initialConstant, eq_comm]
  | some t =>
    simp only [initialValue, initialConstant, Option.mem_def, Option.some.injEq, forall_eq',
      Option.bind_some]
    cases hliteral : t.literal with
    | none =>
      simp only [reduceCtorEq, false_iff, not_and]
      rintro ⟨-, h, -, -⟩
      simp [hliteral] at h
    | some literal =>
      simp only [Option.bind_some]
      by_cases hconstant : t.kind = .number ∨ t.kind = .fractional ∨ t.kind = .character
      · rw [if_neg (not_not_intro hconstant)]
        by_cases hwhole : type.isPointer = true ∧ t.kind = .fractional
        · rw [if_pos hwhole]
          simp only [reduceCtorEq, false_iff, not_and]
          intro h
          exact absurd hwhole.2 (h.whole hwhole.1)
        · rw [if_neg hwhole]
          by_cases hpointee : type.isPointer = true ∧ type.base = .void
          · rw [if_pos hpointee]
            simp only [reduceCtorEq, false_iff, not_and]
            intro h
            exact absurd hpointee.2 (h.pointee hpointee.1)
          · rw [if_neg hpointee, Except.ok.injEq, eq_comm]
            have h : t.Initializes type :=
              ⟨hconstant, by simp [hliteral], fun hp hk => hwhole ⟨hp, hk⟩,
                fun hp hb => hpointee ⟨hp, hb⟩⟩
            simp only [h, true_and]
      · rw [if_pos hconstant]
        simp only [reduceCtorEq, false_iff, not_and]
        intro h
        exact absurd h.constant hconstant

/-! ## Variables -/

/-- A name is that of a variable in a scope if it is among their names. -/
theorem any_name_iff {scope : List Variable} {name : String} :
    (scope.any (·.name = name)) = true ↔ name ∈ scope.map (·.name) := by
  rw [List.any_eq_true, List.mem_map]
  simp only [decide_eq_true_eq]

section

variable {type : TypeSpec} {name : Token} {initializer : Option Token}

/-- A variable that was declared had been allowed. -/
theorem allowsVariable_of_declared (he : e.Valid)
    (h : e.declareVariable type name initializer = .ok e') :
    e.context.AllowsVariable type name initializer := by
  rw [declareVariable] at h
  by_cases hvoid : type.isVoid
  · rw [if_pos hvoid] at h
    cases h
  rw [if_neg hvoid] at h
  by_cases hname : (e.scope.any (·.name = name.lexeme)) = true
  · rw [if_pos hname] at h
    cases h
  rw [if_neg hname] at h
  cases hvalue : initialValue type name.lexeme initializer with
  | error d =>
    rw [hvalue] at h
    cases h
  | ok value =>
    simp only [hvalue] at h
    cases hnode : variableNode e.tree e.body e.childCount ⟨name.lexeme, type, value⟩ with
    | none =>
      rw [hnode] at h
      cases h
    | some tree =>
      have hfresh := not_mem_of_variableNode he.body_lt hnode
      rw [childCount_eq] at hfresh
      exact ⟨hvoid, fun hmem => hname (any_name_iff.mpr hmem),
        (initialValue_eq_ok_iff.mp hvalue).1, hfresh⟩

/-- A variable that is allowed is declared, and nothing else happens. -/
theorem exists_declared (he : e.Valid) (h : e.context.AllowsVariable type name initializer) :
    ∃ e', e.declareVariable type name initializer = .ok e' ∧
      Grown e (.variable type name initializer .empty) e' := by
  have hvalue : initialValue type name.lexeme initializer =
      .ok (initialConstant type initializer) :=
    initialValue_eq_ok_iff.mpr ⟨h.constant, rfl⟩
  have hfresh := h.newNode
  rw [← childCount_eq] at hfresh
  obtain ⟨tree, hnode, hnodes⟩ :=
    exists_variableNode name.lexeme type initializer he.body_lt hfresh
  have hname : ¬ (e.scope.any (·.name = name.lexeme)) = true :=
    fun hany => h.newName (any_name_iff.mp hany)
  let v : Variable := ⟨name.lexeme, type, initialConstant type initializer⟩
  refine ⟨{ e with tree, scope := v :: e.scope }, ?_, ⟨hnodes, rfl, rfl, rfl, rfl⟩⟩
  rw [declareVariable, if_neg h.notVoid, if_neg hname]
  simp only [hvalue, hnode, v]

end

/-! ## Assembly -/

section

variable {sources : List Token}

/-- A block of assembly that was added had been allowed. -/
theorem allowsAssembly_of_added (he : e.Valid) (h : e.addAssembly sources = .ok e') :
    e.context.AllowsAssembly := by
  intro hmem
  rw [← childCount_eq] at hmem
  simp only [addAssembly, (Tree.addChild_eq_none_iff he.body_lt).mpr hmem] at h
  cases h

/-- A block of assembly that is allowed is added, and nothing else happens. -/
theorem exists_added (he : e.Valid) (h : e.context.AllowsAssembly) :
    ∃ e', e.addAssembly sources = .ok e' ∧ Grown e (.assembly sources .empty) e' := by
  rw [Context.AllowsAssembly, ← childCount_eq] at h
  obtain ⟨t₁, hadd, h₁⟩ := Tree.exists_addChild he.body_lt h
  have hblock : e.tree.nodes.size < t₁.nodes.size := by
    rw [h₁, size_graft_leaf]
    omega
  have htree₁ : Bounded t₁.nodes := by
    rw [h₁]
    exact he.bounded.graft
  have hnames : NumberedBelow "SourceBlock" 0 (childNames t₁.nodes e.tree.nodes.size) := by
    rw [h₁, childNames_graft_new he.bounded]
    exact .nil
  obtain ⟨t₂, hsources, h₂⟩ := exists_sourceNodes sources hblock htree₁ hnames
  rw [h₁, graft_leaf] at h₂
  refine ⟨{ e with tree := t₂ }, ?_, ⟨h₂, rfl, rfl, rfl, rfl⟩⟩
  simp only [addAssembly, hadd, hsources]

end

end Environment

end SmallC
