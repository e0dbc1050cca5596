import SmallC.Proofs.Parse.Entering

/-!
# Entering functions

A prototype adds a function and nothing else. A definition opens the body of its
function, whose end then makes the body around it the present one again.
-/

namespace SmallC

open Outline

namespace Environment

variable {e e' e'' : Environment} {p : Program}

/-! ## Parameters and names -/

/-- A name is visible exactly if it is in the innermost scope or in one around it. -/
theorem isVisible_iff {name : String} :
    e.isVisible name = true ↔ name ∈ e.context.scope ++ e.context.outer := by
  unfold isVisible Environment.context
  rw [List.any_cons, Bool.or_eq_true, any_name_iff, List.mem_append, List.any_eq_true]
  refine or_congr Iff.rfl ?_
  simp only [any_name_iff, List.mem_map, List.mem_flatten]
  constructor
  · rintro ⟨scope, hscope, v, hv, rfl⟩
    exact ⟨v, ⟨scope, hscope, hv⟩, rfl⟩
  · rintro ⟨v, ⟨scope, hscope, hv⟩, rfl⟩
    exact ⟨scope, hscope, v, hv, rfl⟩

/-- No parameter is at fault exactly if their names are new, one after the other. -/
theorem parameterFault?_eq_none_iff {before : List String} {ps : List Parameter} :
    e.parameterFault? before ps = none ↔
      NewNames (before ++ (e.context.scope ++ e.context.outer)) (ps.map (·.name.lexeme)) := by
  induction ps generalizing before with
  | nil => exact iff_of_true rfl .nil_right
  | cons p ps ih =>
    have htaken : (before.contains p.name.lexeme || e.isVisible p.name.lexeme) = true ↔
        p.name.lexeme ∈ before ++ (e.context.scope ++ e.context.outer) := by
      rw [Bool.or_eq_true, List.contains_iff_mem, isVisible_iff, ← List.mem_append]
    rw [parameterFault?, List.map_cons, NewNames.cons_iff]
    by_cases h : p.name.lexeme ∈ before ++ (e.context.scope ++ e.context.outer)
    · rw [if_pos (htaken.mpr h)]
      simp [h]
    · rw [if_neg (mt htaken.mp h), ih]
      exact (and_iff_right h).symm

/-- A function may be declared if its parameters are new, and so is it itself or what it
completes. -/
theorem admissible_eq_ok_iff {h : FunctionHeader} {hasBody : Bool} {place : Option Nat} :
    e.admissible h hasBody = .ok place ↔
      e.context.AllowsParameters h ∧ place = e.functionIndex? h.name.lexeme ∧
        ∀ g, e.functions.find? (·.name = h.name.lexeme) = some g →
          g.body = none ∧ hasBody = true ∧ g.sameSignature (.ofHeader h) := by
  have hparameters : e.parameterFault? [] h.parameters = none ↔ e.context.AllowsParameters h :=
    parameterFault?_eq_none_iff
  have hname : (Function.ofHeader h).name = h.name.lexeme := rfl
  unfold admissible
  cases hfault : e.parameterFault? [] h.parameters with
  | some d =>
    have hnot : ¬ e.context.AllowsParameters h := by
      rw [← hparameters, hfault]
      simp
    simp only [reduceCtorEq, hnot, false_and]
  | none =>
    simp only [hparameters.mp hfault, true_and, hname]
    rw [Array.find?_eq_bind_findIdx?_getElem?]
    unfold functionIndex?
    cases hindex : e.functions.findIdx? (·.name = h.name.lexeme) with
    | none =>
      rw [Except.ok.injEq, eq_comm]
      simp
    | some i =>
      obtain ⟨hi, -⟩ := Array.findIdx?_eq_some_iff_getElem.mp hindex
      simp only [Option.bind_some, Array.getElem?_eq_getElem hi, Option.getD_some,
        Option.some.injEq, forall_eq']
      generalize e.functions[i] = g
      by_cases hbody : (g.body.isSome || !hasBody) = true
      · rw [if_pos hbody]
        simp only [reduceCtorEq, false_iff, not_and]
        intro _ hnone htrue
        simp [hnone, htrue] at hbody
      · rw [if_neg hbody]
        have hopen : g.body = none ∧ hasBody = true := by simpa using hbody
        cases hsame : g.sameSignature (.ofHeader h) with
        | true =>
          simp only [Bool.not_true, Bool.false_eq_true, if_false, Except.ok.injEq, hopen,
            and_self, and_true]
          exact eq_comm
        | false => simp

/-! ## Prototypes -/

section

variable {h : FunctionHeader}

/-- A function without parameters may be the first one. -/
theorem admissible_first (he : e.functions = #[]) (type : TypeSpec) (name : Token)
    (hasBody : Bool) : e.admissible ⟨type, name, []⟩ hasBody = .ok none := by
  simp [admissible, parameterFault?, functionIndex?, he]

/-- A function is searched for by its name, from the first to the last. -/
theorem functionIndex?_eq (e : Environment) (name : String) :
    e.functionIndex? name = e.functions.toList.findIdx? (·.name = name) :=
  List.findIdx?_toArray _ _

/-- A function has no place exactly if no function of its name is found. -/
theorem functionIndex?_eq_none_iff {name : String} :
    e.functionIndex? name = none ↔ e.functions.find? (·.name = name) = none := by
  unfold functionIndex?
  rw [Array.findIdx?_eq_none_iff, Array.find?_eq_none]
  simp only [Bool.not_eq_true]

/-- A function has a place exactly if its name is one of the table. -/
theorem isSome_functionIndex?_iff {name : String} :
    (e.functionIndex? name).isSome ↔ name ∈ e.functions.toList.map (·.name) := by
  unfold functionIndex?
  rw [Array.findIdx?_isSome, Array.any_eq_true', List.mem_map]
  simp only [decide_eq_true_eq, Array.mem_toList_iff]

/-- The function that is found by a name has that name. -/
theorem name_of_find? {name : String} {g : Function}
    (hfind : e.functions.find? (·.name = name) = some g) : g.name = name := by
  simpa using Array.find?_some hfind

/-- A function without a body can only be new. -/
theorem allowsFunction_ofHeader_iff :
    e.context.AllowsFunction (.ofHeader h) ↔
      e.functions.find? (·.name = h.name.lexeme) = none := by
  unfold Context.AllowsFunction Environment.context
  simp only [Array.find?_toList]
  constructor
  · intro hnew
    cases hfind : e.functions.find? (·.name = h.name.lexeme) with
    | none => rfl
    | some g =>
      have hname : g.name = h.name.lexeme := name_of_find? hfind
      obtain ⟨-, hbody, -⟩ := hnew g hfind hname
      cases hbody
  · intro hnone g hfind
    have hfind' : e.functions.find? (·.name = h.name.lexeme) = some g := hfind
    rw [hnone] at hfind'
    cases hfind'

/-- A prototype may be declared exactly if its parameters and its name are new. -/
theorem admissible_prototype_iff :
    (∃ place, e.admissible h false = .ok place) ↔
      e.context.AllowsParameters h ∧ e.context.AllowsFunction (.ofHeader h) := by
  rw [allowsFunction_ofHeader_iff]
  simp only [admissible_eq_ok_iff, Bool.false_eq_true, false_and, and_false, imp_false]
  constructor
  · rintro ⟨-, hparameters, -, hnone⟩
    exact ⟨hparameters, Option.eq_none_iff_forall_ne_some.mpr hnone⟩
  · rintro ⟨hparameters, hnone⟩
    exact ⟨_, hparameters, rfl, Option.eq_none_iff_forall_ne_some.mp hnone⟩

/-- What is done to the list of functions is placing a function in its table. -/
theorem toList_placed (f : Function) :
    (match e.functionIndex? f.name with
      | some i => e.functions.setIfInBounds i f
      | none => e.functions.push f).toList = f.place e.functions.toList := by
  rw [Function.place_eq, ← functionIndex?_eq]
  cases e.functionIndex? f.name with
  | none => exact Array.toList_push
  | some i => exact Array.toList_setIfInBounds

/-- A prototype adds its function and no nodes. -/
theorem grown_addPrototype (hnew : e.context.AllowsFunction (.ofHeader h)) :
    Grown e (.prototype h .empty) (e.addPrototype h) := by
  refine ⟨graft_nil.symm, rfl, rfl, rfl, ?_⟩
  have hindex : e.functionIndex? (Function.ofHeader h).name = none :=
    functionIndex?_eq_none_iff.mpr (allowsFunction_ofHeader_iff.mp hnew)
  have hplaced := toList_placed (e := e) (Function.ofHeader h)
  rw [hindex] at hplaced
  exact hplaced

/-! ## Definitions -/

/-- A definition is allowed exactly if whatever has its name is a prototype of its signature. -/
theorem allowsFunction_ofDefinition_iff {next : Nat} :
    e.context.AllowsFunction (.ofDefinition h next) ↔
      ∀ g, e.functions.find? (·.name = h.name.lexeme) = some g →
        g.body = none ∧ g.sameSignature (.ofHeader h) := by
  unfold Context.AllowsFunction Environment.context
  simp only [Array.find?_toList]
  refine forall_congr' fun g => forall_congr' fun hfind => ?_
  have hname : g.name = h.name.lexeme := name_of_find? hfind
  constructor
  · intro hprecedes
    obtain ⟨hbody, -, hsame⟩ := hprecedes hname
    exact ⟨hbody, hsame⟩
  · rintro ⟨hbody, hsame⟩ -
    exact ⟨hbody, rfl, hsame⟩

/-- A definition may be entered exactly if the rules allow it, and its place is then that of its
prototype. -/
theorem admissible_definition_iff {place : Option Nat} (next : Nat) :
    e.admissible h true = .ok place ↔
      place = e.functionIndex? h.name.lexeme ∧
        e.context.AllowsParameters h ∧ e.context.AllowsFunction (.ofDefinition h next) := by
  rw [allowsFunction_ofDefinition_iff, admissible_eq_ok_iff]
  simp only [true_and]
  exact and_left_comm

/-- An environment in which the body of a function has just been opened. -/
structure Opened (e : Environment) (h : FunctionHeader) (e' : Environment) : Prop where
  nodes : e'.tree.nodes = graft e.tree.nodes e.body [functionOutline h []]
  body : e'.body = e.tree.nodes.size + 2 + h.parameters.length
  scope : e'.scope.map (·.name) = h.parameterNames
  outerScopes : e'.outerScopes = e.scope :: e.outerScopes
  functions : e'.functions.toList =
    (Function.ofDefinition h e.tree.nodes.size).place e.functions.toList

/-- A function is opened only if no sibling has its name. -/
theorem not_mem_of_opened {place : Option Nat} (he : e.Valid)
    (hopen : e.openFunction h place = .ok e') : h.name.lexeme ∉ e.context.siblings := by
  simp only [openFunction] at hopen
  cases hnodes : functionNodes e.tree e.body (.ofHeader h) with
  | none =>
    rw [hnodes] at hopen
    cases hopen
  | some r => exact not_mem_of_functionNodes he.body_lt hnodes

/-- A function whose name no sibling has is opened. -/
theorem exists_opened (he : e.Valid) (hname : h.name.lexeme ∉ e.context.siblings) :
    ∃ e', e.openFunction h (e.functionIndex? h.name.lexeme) = .ok e' ∧ Opened e h e' := by
  obtain ⟨tree, hnodes, htree⟩ := exists_functionNodes he.body_lt he.bounded hname
  have hplaced := toList_placed (e := e) (Function.ofDefinition h e.tree.nodes.size)
  have hscope : ((Function.ofHeader h).parameters.map fun p =>
      (⟨p.1, p.2, none⟩ : Variable)).map (·.name) = h.parameterNames := by
    simp [Function.ofHeader, FunctionHeader.parameterNames]
  simp only [openFunction, hnodes]
  exact ⟨_, rfl, htree, rfl, hscope, rfl, hplaced⟩

/-- The body of a function is its last node. -/
theorem graft_functionOutline {nodes : Array Node} {parent : Nat} (h : FunctionHeader)
    (inside : List Outline) :
    graft nodes parent [functionOutline h inside] =
      graft (graft nodes parent
          [.node h.name.lexeme [] [.node "Arguments" [] (argumentOutlines 0 h.parameters)]])
        nodes.size [.node "Body" [] inside] := by
  have hnode : nodes.size < (graft nodes parent [.node h.name.lexeme [] []]).size := by
    rw [size_graft_leaf]
    omega
  have hchildren : functionOutline h inside = .node h.name.lexeme []
      ([.node "Arguments" [] (argumentOutlines 0 h.parameters)] ++ [.node "Body" [] inside]) := rfl
  rw [hchildren, ← graft_leaf h.name.lexeme, ← graft_graft hnode, graft_leaf h.name.lexeme]

/-- The nodes of a function before its body are these. -/
theorem size_graft_arguments {nodes : Array Node} {parent : Nat} (h : FunctionHeader) :
    (graft nodes parent [.node h.name.lexeme []
      [.node "Arguments" [] (argumentOutlines 0 h.parameters)]]).size =
      nodes.size + 2 + h.parameters.length := by
  simp only [size_graft, sizes, size, sizes_argumentOutlines]
  omega

/-- Opening a body leaves the tree as it should be, and goes into a body that is there. -/
theorem Opened.valid (hopened : Opened e h e') (he : e.Valid) : e'.Valid := by
  constructor
  · rw [hopened.nodes]
    exact he.bounded.graft
  · rw [hopened.nodes, hopened.body, graft_functionOutline, size_graft_leaf,
      size_graft_arguments]
    exact Nat.lt_succ_self _

/-- A function takes up three nodes and one for each parameter. -/
theorem Opened.size (hopened : Opened e h e') :
    e'.tree.nodes.size = e.tree.nodes.size + 3 + h.parameters.length := by
  rw [hopened.nodes, graft_functionOutline, size_graft_leaf, size_graft_arguments]
  omega

/-- There is nothing in a body that has just been opened. -/
theorem Opened.siblings (hopened : Opened e h e') (he : e.Valid) : e'.context.siblings = [] := by
  show childNames e'.tree.nodes e'.body = []
  rw [hopened.nodes, hopened.body, graft_functionOutline, ← size_graft_arguments,
    childNames_graft_new he.bounded.graft]
  rfl

/-- What the rules ask inside of a body that was opened. -/
theorem Opened.context (hopened : Opened e h e') (he : e.Valid) :
    e'.context = e.context.inside h := by
  have hsiblings : childNames e'.tree.nodes e'.body = [] := hopened.siblings he
  unfold Environment.context Context.inside
  rw [hopened.scope, hopened.outerScopes, hopened.functions, hsiblings, hopened.size,
    List.flatten_cons, List.map_append]

/-- Closing the body of a function after its declarations. -/
theorem exists_closed (he : e.Valid) (hopened : Opened e h e') (hgrown : Grown e' p e'')
    (brace : Token) :
    ∃ e₁, e''.closeBody brace = .ok e₁ ∧ Grown e (.definition h p .empty) e₁ := by
  have hcount : e'.childCount = 0 := by rw [childCount_eq, hopened.siblings he, List.length_nil]
  -- the nodes of the declarations come below the body, which comes below the function
  have hnodes := hgrown.nodes
  rw [hcount, hopened.nodes, hopened.body, graft_functionOutline h [],
    ← size_graft_arguments, graft_leaf] at hnodes
  have hfunction : e.tree.nodes.size < (graft e.tree.nodes e.body [.node h.name.lexeme []
      [.node "Arguments" [] (argumentOutlines 0 h.parameters)]]).size := by
    rw [size_graft_arguments]
    omega
  have hparent : e''.tree.parent? e''.body = some e.tree.nodes.size := by
    rw [Tree.parent?_eq, hgrown.body, hopened.body, hnodes, ← size_graft_arguments]
    exact parentAt?_graft_new _ _ _
  have hname : e''.tree.name e.tree.nodes.size = h.name.lexeme := by
    rw [Tree.name_eq, hnodes, nameAt_graft hfunction]
    exact nameAt_graft_new _ _ _
  have hbody : e''.tree.parent? e.tree.nodes.size = some e.body := by
    rw [Tree.parent?_eq, hnodes, parentAt?_graft hfunction]
    exact parentAt?_graft_new _ _ _
  rw [← graft_functionOutline h _] at hnodes
  -- the function is found by the name of its node
  have hfunctions : e''.functions.toList = ((Program.definition h p .empty).declared
      e.tree.nodes.size).foldl (fun table f => f.place table) e.functions.toList := by
    rw [hgrown.functions, hopened.functions, hopened.size, Program.declared, Program.declared,
      List.append_nil, List.foldl_cons]
  have hknown : (e''.functionIndex? h.name.lexeme).isSome := by
    rw [isSome_functionIndex?_iff, hfunctions, Program.declared, List.cons_append, List.foldl_cons]
    exact Function.mem_map_name_foldl_place (Function.mem_map_name_place.mpr (.inl rfl)) _
  refine ⟨{ e'' with body := e.body, scope := e.scope, outerScopes := e.outerScopes }, ?_, ?_⟩
  · simp only [closeBody, hgrown.outerScopes, hopened.outerScopes, hparent, Option.getD_some,
      hname, hknown, if_true, hbody]
  · exact ⟨hnodes, rfl, rfl, rfl, hfunctions⟩

end

end Environment

end SmallC
