import SmallC.Declaration
import SmallC.Tree

/-!
# Environments

An environment holds what has been declared so far: the tree, the body to which
declarations are added, the functions, and the names of each open body. A
declaration that breaks a rule leaves it as it was.
-/

namespace SmallC

/-- A variable or a parameter in the scope of a body. -/
structure Variable where
  /-- The name. -/
  name : String
  /-- The type. -/
  type : TypeSpec
  /-- The constant it starts with, if any. -/
  value : Option Constant
  deriving DecidableEq, Inhabited, Repr

/-- A declared function. -/
structure Function where
  /-- The name. -/
  name : String
  /-- The names and types of the parameters. -/
  parameters : List (String × TypeSpec)
  /-- The type of the result; a `void` function has none. -/
  result : Option TypeSpec
  /-- The number of its body's node; a prototype has none. -/
  body : Option Nat
  /-- Where its name stands. -/
  position : Position
  deriving DecidableEq, Inhabited, Repr

namespace Function

/-- The function of a header, without a body. -/
def ofHeader (h : FunctionHeader) : Function where
  name := h.name.lexeme
  parameters := h.parameters.map fun p => (p.name.lexeme, p.type)
  result := if h.type.isVoid then none else some h.type
  body := none
  position := h.name.position

/-- Two functions have the same result and the same types of parameters. -/
def sameSignature (f g : Function) : Bool :=
  f.result = g.result && f.parameters.map (·.2) = g.parameters.map (·.2)

end Function

/-- What has been declared so far. -/
structure Environment where
  /-- The tree. -/
  tree : Tree
  /-- The number of the body to which declarations are added. -/
  body : Nat
  /-- The functions, in the order of their first declarations. They are searched for by their
  names; a map from names to places beside the list would find the same
  (`Parse.Reaches.lookup_places`). -/
  functions : Array Function
  /-- The variables of the innermost open body, the newest first. -/
  scope : List Variable
  /-- The variables of the bodies around it, from the inside to the outside. -/
  outerScopes : List (List Variable)

namespace Environment

/-- Nothing declared yet. -/
def empty : Environment := ⟨Tree.empty, Tree.unitBody, #[], [], []⟩

/-- The environment without declarations stands for one that is not there. -/
instance : Inhabited Environment := ⟨empty⟩

/-- How many function bodies are open. -/
def depth (e : Environment) : Nat := e.outerScopes.length

/-- A name is in the scope of some open body. -/
def isVisible (e : Environment) (name : String) : Bool :=
  (e.scope :: e.outerScopes).any fun scope => scope.any (·.name = name)

/-- The place of a function in the list of functions. -/
def functionIndex? (e : Environment) (name : String) : Option Nat :=
  e.functions.findIdx? (·.name = name)

/-- The number of children that the present body has. -/
def childCount (e : Environment) : Nat := (e.tree.children e.body).size

/-- The fault of a node that would have the name of another one. -/
def duplicateNode (position : Position) (name : String) : Diagnostic :=
  .declaration position (.duplicateNode name)

/-- The constant that a token gives to a variable, if the token is given. -/
def initialValue (type : TypeSpec) (name : String) :
    Option Token → Except Diagnostic (Option Constant)
  | none => .ok none
  | some t =>
    let constant := t.kind = .number ∨ t.kind = .fractional ∨ t.kind = .character
    match t.literal with
    | none => .error (.declaration t.position (.missingInitializer name))
    | some literal =>
      if ¬ constant then .error (.declaration t.position (.missingInitializer name))
      else if type.isPointer ∧ t.kind = .fractional then
        .error (.declaration t.position (.fractionalPointer name))
      else if type.isPointer ∧ type.base = .void then
        .error (.declaration t.position (.initializedVoidPointer name))
      else .ok (Constant.ofLiteral type.base literal)

/-- The tree with a node for a variable, the `count`-th child of its body. -/
def variableNode (tree : Tree) (body count : Nat) (v : Variable) : Option Tree :=
  match tree.addChild body s!"Variable{count}" with
  | none => none
  | some (tree, node) =>
    let tree := tree.setAttribute node "Type" (.type v.type.base)
    let tree := tree.setAttribute node "Ptr" (.flag v.type.isPointer)
    match v.value with
    | none => some tree
    | some value => some (tree.setAttribute node "Value" (.constant value))

/-- Declares a variable in the present body. -/
def declareVariable (e : Environment) (type : TypeSpec) (name : Token) (initializer : Option Token) :
    Except Diagnostic Environment :=
  if type.isVoid then .error (.declaration name.position (.voidVariable name.lexeme))
  else if e.scope.any (·.name = name.lexeme) then
    .error (.declaration name.position (.duplicateVariable name.lexeme))
  else
    match initialValue type name.lexeme initializer with
    | .error d => .error d
    | .ok value =>
      let v : Variable := ⟨name.lexeme, type, value⟩
      match variableNode e.tree e.body e.childCount v with
      | none => .error (duplicateNode name.position s!"Variable{e.childCount}")
      | some tree => .ok { e with tree, scope := v :: e.scope }

/-- The tree with a node for each string of a block of assembly, from the
`index`-th on. -/
def sourceNodes (block : Nat) (index : Nat) (tree : Tree) : List Token → Option Tree
  | [] => some tree
  | t :: ts =>
    match tree.addChild block s!"SourceBlock{index}" with
    | none => none
    | some (tree, node) =>
      sourceNodes block (index + 1) (tree.setAttribute node "Source" (.text t.lexeme)) ts

/-- Adds a block of assembly to the present body. A fault is reported at its
first string. -/
def addAssembly (e : Environment) (sources : List Token) : Except Diagnostic Environment :=
  let position := (sources.head?.map (·.position)).getD default
  let name := s!"Assembly{e.childCount}"
  match e.tree.addChild e.body name with
  | none => .error (duplicateNode position name)
  | some (tree, block) =>
    match sourceNodes block 0 tree sources with
    | none => .error (duplicateNode position name)
    | some tree => .ok { e with tree }

/-- The fault of the first parameter whose name is that of one before it or is
visible where the function is declared. -/
def parameterFault? (e : Environment) (before : List String) : List Parameter → Option Diagnostic
  | [] => none
  | p :: ps =>
    let name := p.name.lexeme
    if before.contains name || e.isVisible name then
      some (.declaration p.name.position (.duplicateParameter name))
    else parameterFault? e (name :: before) ps

/-- Whether a function may be declared: its parameters have new names, and so has
the function itself, unless it gives a body to a prototype of its signature,
whose place is returned. -/
def admissible (e : Environment) (h : FunctionHeader) (hasBody : Bool) :
    Except Diagnostic (Option Nat) :=
  match e.parameterFault? [] h.parameters with
  | some d => .error d
  | none =>
    let f := Function.ofHeader h
    match e.functionIndex? f.name with
    | none => .ok none
    | some i =>
      let earlier := e.functions[i]?.getD default
      if earlier.body.isSome || !hasBody then
        .error (.declaration f.position (.duplicateFunction f.name))
      else if !earlier.sameSignature f then
        .error (.declaration f.position (.conflictingFunction f.name))
      else .ok (some i)

/-- The tree with a node for each parameter, from the `index`-th on. -/
def argumentNodes (list : Nat) (index : Nat) (tree : Tree) : List (String × TypeSpec) → Option Tree
  | [] => some tree
  | (name, type) :: rest =>
    match tree.addChild list s!"Argument{index}" with
    | none => none
    | some (tree, node) =>
      let tree := tree.setAttribute node "Name" (.text name)
      let tree := tree.setAttribute node "Type" (.type type.base)
      let tree := tree.setAttribute node "Ptr" (.flag type.isPointer)
      argumentNodes list (index + 1) tree rest

/-- The tree with the nodes of a function under a body, and the number of the
function's own body. -/
def functionNodes (tree : Tree) (body : Nat) (f : Function) : Option (Tree × Nat) := do
  let (tree, node) ← tree.addChild body f.name
  let (tree, list) ← tree.addChild node "Arguments"
  let tree ← argumentNodes list 0 tree f.parameters
  tree.addChild node "Body"

/-- Opens the body of a function, in the place of its prototype if there is one.
Its parameters are the first names of the new scope. -/
def openFunction (e : Environment) (h : FunctionHeader) (place : Option Nat) :
    Except Diagnostic Environment :=
  let f := Function.ofHeader h
  match functionNodes e.tree e.body f with
  | none => .error (duplicateNode f.position f.name)
  | some (tree, body) =>
    let f := { f with body := some body }
    let functions := match place with
      | some i => e.functions.setIfInBounds i f
      | none => e.functions.push f
    let scope := f.parameters.map fun (name, type) => ⟨name, type, none⟩
    .ok ⟨tree, body, functions, scope, e.scope :: e.outerScopes⟩

/-- Adds a prototype. -/
def addPrototype (e : Environment) (h : FunctionHeader) : Environment :=
  { e with functions := e.functions.push (Function.ofHeader h) }

/-- Closes the innermost body; declarations go on in the body around its
function. -/
def closeBody (e : Environment) (brace : Token) : Except Diagnostic Environment :=
  match e.outerScopes with
  | [] => .error (.declaration brace.position .unmatchedBrace)
  | scope :: outerScopes =>
    let parent := (e.tree.parent? e.body).getD Tree.root
    let body :=
      if (e.functionIndex? (e.tree.name parent)).isSome then (e.tree.parent? parent).getD Tree.root
      else parent
    .ok { e with body, scope, outerScopes }

end Environment

/-- The tokens after the brace that closes the innermost of `depth + 1` open
bodies of which none is to be declared. -/
def skipBody (depth : Nat) : List Token → List Token
  | [] => []
  | t :: ts =>
    if t.kind = .symbol .leftBrace then skipBody (depth + 1) ts
    else if t.kind = .symbol .rightBrace then
      match depth with
      | 0 => ts
      | depth + 1 => skipBody depth ts
    else skipBody depth ts

/-- A body that is skipped leaves no more tokens than there were. -/
theorem length_skipBody (depth : Nat) (ts : List Token) :
    (skipBody depth ts).length ≤ ts.length := by
  induction ts generalizing depth with
  | nil => simp [skipBody]
  | cons t ts ih =>
    simp only [skipBody]
    split
    · exact Nat.le_succ_of_le (ih _)
    · split
      · split
        · simp
        · exact Nat.le_succ_of_le (ih _)
      · exact Nat.le_succ_of_le (ih _)

namespace Environment

/-- Enters a declaration that was read, given the tokens after it. The body of a
function that may not be declared is skipped. -/
def enter (e : Environment) (d : Declaration) (ts : List Token) :
    Except Diagnostic Environment × List Token :=
  match d with
  | .variable type name initializer => (e.declareVariable type name initializer, ts)
  | .assembly sources => (e.addAssembly sources, ts)
  | .close brace => (e.closeBody brace, ts)
  | .prototype h =>
    match e.admissible h false with
    | .error d => (.error d, ts)
    | .ok _ => (.ok (e.addPrototype h), ts)
  | .definition h =>
    match e.admissible h true with
    | .error d => (.error d, skipBody 0 ts)
    | .ok place => (e.openFunction h place, ts)

/-- Entering a declaration takes tokens only if it skips a body. -/
theorem length_enter (e : Environment) (d : Declaration) (ts : List Token) :
    (e.enter d ts).2.length ≤ ts.length := by
  cases d with
  | prototype h =>
    simp only [enter]
    split <;> simp
  | definition h =>
    simp only [enter]
    split
    · exact length_skipBody 0 ts
    · simp
  | «variable» type name initializer => simp [enter]
  | assembly sources => simp [enter]
  | close brace => simp [enter]

/-- Reads and enters the declaration that starts with the token `t`; `last` is
the position of the last token of all. -/
def declare (e : Environment) (last : Position) (t : Token) (ts : List Token) :
    Except Diagnostic Environment × List Token :=
  match Declaration.read last t ts with
  | (.error d, rest) => (.error d, rest)
  | (.ok d, rest) => e.enter d rest

/-- A declaration leaves no more tokens than there are after its first one. -/
theorem length_declare (e : Environment) (last : Position) (t : Token) (ts : List Token) :
    (e.declare last t ts).2.length ≤ ts.length := by
  have hread := Declaration.length_read last t ts
  unfold declare
  split
  · rename_i d rest h
    simpa [h] using hread
  · rename_i d rest h
    rw [h] at hread
    exact Nat.le_trans (length_enter e d rest) hread

end Environment

end SmallC
