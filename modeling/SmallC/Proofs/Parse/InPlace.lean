import SmallC.Proofs.Parse.Runs

/-!
# Declaring in place

A declaration makes many small changes: nodes are added one by one, then their attributes,
then names and functions. Here these changes are made to an environment one after the
other, and a fault does not undo the changes before it. There is nothing to undo: only the
first node of a declaration can be refused, and nothing is changed before that.
-/

namespace SmallC

namespace Environment

/-- Changes of an environment that are made one after the other. A fault leaves the
environment as it is at that time. -/
abbrev Change (α : Type) := ExceptT Diagnostic (StateM Environment) α

namespace Change

/-- The result of changes, and the environment after them. -/
def applyTo {α : Type} (c : Change α) (e : Environment) : Except Diagnostic α × Environment :=
  (ExceptT.run c).run e

/-- Adds a node. -/
def addNode (position : Position) (parent : Nat) (name : String) : Change Nat := do
  match (← get).tree.addChild parent name with
  | none => throw (duplicateNode position name)
  | some (tree, node) =>
    modify fun e => { e with tree }
    return node

/-- Sets an attribute of a node. -/
def setAttribute (node : Nat) (key : String) (value : Attribute) : Change Unit :=
  modify fun e => { e with tree := e.tree.setAttribute node key value }

/-- Adds the node of a variable, and its name to the present body. -/
def addVariable (position : Position) (v : Variable) : Change Unit := do
  let e ← get
  let node ← addNode position e.body s!"Variable{e.childCount}"
  setAttribute node "Type" (.type v.type.base)
  setAttribute node "Ptr" (.flag v.type.isPointer)
  match v.value with
  | none => pure ()
  | some value => setAttribute node "Value" (.constant value)
  modify fun e => { e with scope := v :: e.scope }

/-- Adds the nodes of the strings of a block of assembly, from the `index`-th on. -/
def addSources (position : Position) (block : Nat) : Nat → List Token → Change Unit
  | _, [] => pure ()
  | index, t :: ts => do
    let node ← addNode position block s!"SourceBlock{index}"
    setAttribute node "Source" (.text t.lexeme)
    addSources position block (index + 1) ts

/-- Adds a block of assembly to the present body. -/
def addAssembly (sources : List Token) : Change Unit := do
  let e ← get
  let position := (sources.head?.map (·.position)).getD default
  let block ← addNode position e.body s!"Assembly{e.childCount}"
  addSources position block 0 sources

/-- Adds the nodes of parameters, from the `index`-th on. -/
def addArguments (position : Position) (list : Nat) : Nat → List (String × TypeSpec) → Change Unit
  | _, [] => pure ()
  | index, (name, type) :: rest => do
    let node ← addNode position list s!"Argument{index}"
    setAttribute node "Name" (.text name)
    setAttribute node "Type" (.type type.base)
    setAttribute node "Ptr" (.flag type.isPointer)
    addArguments position list (index + 1) rest

/-- Opens the body of a function, in the place of its prototype if there is one: first its
nodes are added, then its scope is opened, and at last the function is placed. -/
def openFunction (h : FunctionHeader) (place : Option Nat) : Change Unit := do
  let f := Function.ofHeader h
  let e ← get
  let node ← addNode f.position e.body f.name
  let list ← addNode f.position node "Arguments"
  addArguments f.position list 0 f.parameters
  let body ← addNode f.position node "Body"
  modify fun e => { e with
    scope := f.parameters.map fun (name, type) => ⟨name, type, none⟩
    outerScopes := e.scope :: e.outerScopes }
  modify fun e => { e with body }
  modify fun e => { e with
    functions := match place with
      | some i => e.functions.setIfInBounds i { f with body := some body }
      | none => e.functions.push { f with body := some body } }

/-- Closes the innermost body: first its scope, then the body itself. -/
def closeBody (brace : Token) : Change Unit := do
  match (← get).outerScopes with
  | [] => throw (.declaration brace.position .unmatchedBrace)
  | scope :: outerScopes =>
    modify fun e => { e with scope, outerScopes }
    modify fun e =>
      let parent := (e.tree.parent? e.body).getD Tree.root
      { e with
        body :=
          if (e.functionIndex? (e.tree.name parent)).isSome then
            (e.tree.parent? parent).getD Tree.root
          else parent }

/-- Makes the changes of a declaration, after the checks that come before them. -/
def enter : Declaration → Change Unit
  | .variable type name initializer => do
    let e ← get
    if type.isVoid then throw (.declaration name.position (.voidVariable name.lexeme))
    else if e.scope.any (·.name = name.lexeme) then
      throw (.declaration name.position (.duplicateVariable name.lexeme))
    else
      match initialValue type name.lexeme initializer with
      | .error d => throw d
      | .ok value => addVariable name.position ⟨name.lexeme, type, value⟩
  | .prototype h => do
    match (← get).admissible h false with
    | .error d => throw d
    | .ok _ => modify fun e => { e with functions := e.functions.push (Function.ofHeader h) }
  | .definition h => do
    match (← get).admissible h true with
    | .error d => throw d
    | .ok place => openFunction h place
  | .assembly sources => addAssembly sources
  | .close brace => closeBody brace

/-- Reads the declaration that starts with the token `t`, and makes its changes. -/
def declare (last : Position) (t : Token) (ts : List Token) : Change Unit :=
  match (Declaration.read last t ts).1 with
  | .error d => throw d
  | .ok d => enter d

/-! ## Changes one after the other -/

section

variable {α : Type} {e : Environment} {position : Position} {parent node : Nat} {name : String}
  {tree : Tree}

/-- Looking at the environment changes nothing. -/
theorem applyTo_get (f : Environment → Change α) : applyTo (get >>= f) e = applyTo (f e) e := rfl

/-- What is done after a step that succeeds is done to what the step has left. -/
theorem applyTo_bind {β : Type} {c : Change β} {b : β} {e' : Environment}
    (h : applyTo c e = (.ok b, e')) (f : β → Change α) :
    applyTo (c >>= f) e = applyTo (f b) e' := by
  unfold applyTo at h ⊢
  rw [ExceptT.run_bind, StateT.run_bind, h]
  rfl

/-- Attributes can always be set. -/
theorem applyTo_setAttribute (key : String) (value : Attribute) (f : Unit → Change α) :
    applyTo (setAttribute node key value >>= f) e =
      applyTo (f ()) { e with tree := e.tree.setAttribute node key value } := rfl

/-- A node that is added. -/
theorem applyTo_addNode (h : e.tree.addChild parent name = some (tree, node))
    (position : Position) (f : Nat → Change α) :
    applyTo (addNode position parent name >>= f) e = applyTo (f node) { e with tree } := by
  rw [addNode, bind_assoc, applyTo_get, h]
  rfl

/-- A node that is refused. -/
theorem applyTo_addNode_of_none (h : e.tree.addChild parent name = none) (position : Position)
    (f : Nat → Change α) :
    applyTo (addNode position parent name >>= f) e = (.error (duplicateNode position name), e) := by
  rw [addNode, bind_assoc, applyTo_get, h]
  rfl

/-- A variable is added with its node, or nothing is. -/
theorem applyTo_addVariable (position : Position) (v : Variable) :
    applyTo (addVariable position v) e =
      match variableNode e.tree e.body e.childCount v with
      | none => (.error (duplicateNode position s!"Variable{e.childCount}"), e)
      | some tree => (.ok (), { e with tree, scope := v :: e.scope }) := by
  rw [addVariable, applyTo_get, variableNode]
  cases hadd : e.tree.addChild e.body s!"Variable{e.childCount}" with
  | none => exact applyTo_addNode_of_none hadd _ _
  | some r =>
    rw [applyTo_addNode hadd, applyTo_setAttribute, applyTo_setAttribute]
    cases v.value <;> rfl

/-- Strings of assembly are added one by one, if there are no nodes of their names. -/
theorem applyTo_addSources {block index : Nat} {ts : List Token}
    (h : sourceNodes block index e.tree ts = some tree) :
    applyTo (addSources position block index ts) e = (.ok (), { e with tree }) := by
  induction ts generalizing e index with
  | nil =>
    cases h
    rfl
  | cons t ts ih =>
    rw [sourceNodes] at h
    cases hadd : e.tree.addChild block s!"SourceBlock{index}" with
    | none =>
      rw [hadd] at h
      cases h
    | some r =>
      simp only [hadd] at h
      rw [addSources, applyTo_addNode hadd, applyTo_setAttribute, ih h]

/-- Parameters are added one by one, if there are no nodes of their names. -/
theorem applyTo_addArguments {list index : Nat} {ps : List (String × TypeSpec)}
    (h : argumentNodes list index e.tree ps = some tree) :
    applyTo (addArguments position list index ps) e = (.ok (), { e with tree }) := by
  induction ps generalizing e index with
  | nil =>
    cases h
    rfl
  | cons p ps ih =>
    rw [argumentNodes] at h
    cases hadd : e.tree.addChild list s!"Argument{index}" with
    | none =>
      rw [hadd] at h
      cases h
    | some r =>
      simp only [hadd] at h
      rw [addArguments, applyTo_addNode hadd, applyTo_setAttribute, applyTo_setAttribute,
        applyTo_setAttribute, ih h]

end

/-! ## All or nothing -/

/-- The environment is the new one if there is one, and otherwise the old one. -/
def allOrNothing (e : Environment) :
    Except Diagnostic Environment → Except Diagnostic Unit × Environment
  | .ok e' => (.ok (), e')
  | .error d => (.error d, e)

variable {e : Environment}

/-- The strings of a block have nodes of their own, so that none of them is refused. -/
theorem applyTo_addAssembly (he : e.Valid) (sources : List Token) :
    applyTo (addAssembly sources) e = allOrNothing e (e.addAssembly sources) := by
  rw [addAssembly, applyTo_get, Environment.addAssembly]
  dsimp only
  cases hadd : e.tree.addChild e.body s!"Assembly{e.childCount}" with
  | none => exact applyTo_addNode_of_none hadd _ _
  | some r =>
    have hallowed : e.context.AllowsAssembly := by
      rw [Context.AllowsAssembly, ← childCount_eq]
      exact ((Tree.addChild_eq_some_iff he.body_lt).mp hadd).1
    obtain ⟨e', hadded, -⟩ : ∃ e', e.addAssembly sources = .ok e' ∧ _ :=
      exists_added he hallowed
    simp only [Environment.addAssembly, hadd] at hadded
    cases hsources : sourceNodes r.2 0 r.1 sources with
    | none => simp [hsources] at hadded
    | some tree =>
      rw [applyTo_addNode hadd, applyTo_addSources hsources]
      simp only [hsources]
      rfl

/-- The other nodes of a function are below its own, so that none of them is refused. -/
theorem applyTo_openFunction (he : e.Valid) (h : FunctionHeader) (place : Option Nat) :
    applyTo (openFunction h place) e = allOrNothing e (e.openFunction h place) := by
  rw [openFunction, applyTo_get, Environment.openFunction]
  dsimp only
  cases hnodes : functionNodes e.tree e.body (.ofHeader h) with
  | none =>
    have hadd : e.tree.addChild e.body h.name.lexeme = none := by
      rw [Tree.addChild_eq_none_iff he.body_lt]
      by_cases hname : h.name.lexeme ∈ childNames e.tree.nodes e.body
      · exact hname
      · obtain ⟨tree, hsome, -⟩ := exists_functionNodes he.body_lt he.bounded hname
        rw [hnodes] at hsome
        cases hsome
    exact applyTo_addNode_of_none hadd _ _
  | some r =>
    simp only [functionNodes, Option.bind_eq_bind, Option.bind_eq_some_iff] at hnodes
    obtain ⟨⟨t₁, node⟩, h₁, ⟨t₂, list⟩, h₂, t₃, h₃, h₄⟩ := hnodes
    rw [applyTo_addNode h₁, applyTo_addNode (e := { e with tree := t₁ }) h₂,
      applyTo_bind (applyTo_addArguments (e := { e with tree := t₂ }) h₃),
      applyTo_addNode (e := { e with tree := t₃ }) h₄]
    rfl

/-- A brace closes its body, or nothing happens. -/
theorem applyTo_closeBody (brace : Token) :
    applyTo (closeBody brace) e = allOrNothing e (e.closeBody brace) := by
  rw [closeBody, applyTo_get, Environment.closeBody]
  cases e.outerScopes with
  | nil => rfl
  | cons scope outerScopes => rfl

/-- The changes of a declaration are all made, or none of them is. -/
theorem applyTo_enter (he : e.Valid) (d : Declaration) (ts : List Token) :
    applyTo (enter d) e = allOrNothing e (e.enter d ts).1 := by
  cases d with
  | «variable» type name initializer =>
    rw [enter, applyTo_get, Environment.enter, declareVariable]
    by_cases hvoid : type.isVoid
    · rw [if_pos hvoid, if_pos hvoid]
      rfl
    rw [if_neg hvoid, if_neg hvoid]
    by_cases hname : (e.scope.any (·.name = name.lexeme)) = true
    · rw [if_pos hname, if_pos hname]
      rfl
    rw [if_neg hname, if_neg hname]
    cases initialValue type name.lexeme initializer with
    | error d => rfl
    | ok value =>
      dsimp only
      rw [applyTo_addVariable]
      cases variableNode e.tree e.body e.childCount ⟨name.lexeme, type, value⟩ <;> rfl
  | prototype h =>
    rw [enter, applyTo_get, Environment.enter]
    cases e.admissible h false <;> rfl
  | definition h =>
    rw [enter, applyTo_get, Environment.enter]
    cases e.admissible h true with
    | error d => rfl
    | ok place => exact applyTo_openFunction he h place
  | assembly sources => exact applyTo_addAssembly he sources
  | close brace => exact applyTo_closeBody brace

/-- A declaration that is carried out step by step, on the tree in place, does all that it should or
changes nothing. -/
theorem applyTo_declare (he : e.Valid) (last : Position) (t : Token) (ts : List Token) :
    applyTo (declare last t ts) e = allOrNothing e (e.declare last t ts).1 := by
  rw [declare, Environment.declare]
  rcases Declaration.read last t ts with ⟨d | d, rest⟩
  · rfl
  · exact applyTo_enter he d rest

end Change

end Environment

end SmallC
