import SmallC.Environment
import SmallC.Proofs.Tree.Numbering

/-!
# Programs

A program is a list of declarations, where a function definition has a program of its
own as its body. Here it is said how a program is spelled, which rules it has to obey,
and what it describes: a tree, given by its outline, and a list of functions. Nothing
here is about parsing.
-/

namespace SmallC

/-- What is declared one after the other in a unit or in the body of a function. -/
inductive Program where
  | empty
  | variable (type : TypeSpec) (name : Token) (initializer : Option Token) (rest : Program)
  | prototype (header : FunctionHeader) (rest : Program)
  | definition (header : FunctionHeader) (body rest : Program)
  | assembly (sources : List Token) (rest : Program)
  deriving DecidableEq, Repr

/-! ## Spelling -/

/-- What a token has to be: of some kind, and possibly one particular token. -/
structure Pattern where
  /-- The kind. -/
  kind : TokenKind
  /-- The token itself, where it matters which one it is. -/
  token : Option Token

namespace Pattern

/-- Any token of a symbol. -/
def symbol (sign : Symbol) : Pattern := ⟨.symbol sign, none⟩

/-- Any token of a reserved word. -/
def keyword (word : Keyword) : Pattern := ⟨.keyword word, none⟩

/-- A token fits a pattern. -/
def Fits (p : Pattern) (t : Token) : Prop := t.kind = p.kind ∧ ∀ u ∈ p.token, t = u

/-- Whether a token fits a pattern is decided by comparing kinds and tokens. -/
instance (p : Pattern) (t : Token) : Decidable (p.Fits t) := inferInstanceAs (Decidable (_ ∧ _))

end Pattern

/-- Tokens that fit the patterns one by one, and then the tokens `rest`. -/
def Spells : List Pattern → List Token → List Token → Prop
  | [], ts, rest => ts = rest
  | p :: ps, t :: ts, rest => p.Fits t ∧ Spells ps ts rest
  | _ :: _, [], _ => False

/-- Whether tokens spell patterns is decided token by token. -/
instance Spells.decidable : (ps : List Pattern) → (ts rest : List Token) →
    Decidable (Spells ps ts rest)
  | [], ts, rest => inferInstanceAs (Decidable (ts = rest))
  | p :: ps, t :: ts, rest =>
    let _ := decidable ps ts rest
    inferInstanceAs (Decidable (p.Fits t ∧ Spells ps ts rest))
  | _ :: _, [], _ => inferInstanceAs (Decidable False)

/-- The reserved word of a primitive type. -/
def Primitive.keyword : Primitive → Keyword
  | .int => .int
  | .float => .float
  | .bool => .bool
  | .char => .char
  | .short => .short
  | .void => .void

/-- A type is spelled by its word, and a star for a pointer. -/
def TypeSpec.patterns (type : TypeSpec) : List Pattern :=
  .keyword type.base.keyword :: if type.isPointer then [.symbol .star] else []

/-- A type and a name. -/
def typedName (type : TypeSpec) (name : Token) : List Pattern :=
  type.patterns ++ [⟨.identifier, some name⟩]

/-- Parameters are separated by commas. -/
def parameterPatterns : List Parameter → List Pattern
  | [] => []
  | [p] => typedName p.type p.name
  | p :: ps => typedName p.type p.name ++ .symbol .comma :: parameterPatterns ps

/-- A function is spelled up to the end of its parameters. -/
def FunctionHeader.patterns (h : FunctionHeader) : List Pattern :=
  typedName h.type h.name ++
    .symbol .leftParen :: parameterPatterns h.parameters ++ [.symbol .rightParen]

/-- The spelling of a single declaration; that of a definition ends where its body
starts, and the end of a body is spelled by itself. -/
def Declaration.patterns : Declaration → List Pattern
  | .variable type name none => typedName type name ++ [.symbol .semi]
  | .variable type name (some value) =>
    typedName type name ++ [.symbol .eq, ⟨value.kind, some value⟩, .symbol .semi]
  | .prototype h => h.patterns ++ [.symbol .semi]
  | .definition h => h.patterns ++ [.symbol .leftBrace]
  | .assembly sources =>
    [.keyword .asm, .symbol .leftBrace] ++ sources.map (⟨.string, some ·⟩) ++
      [.symbol .rightBrace]
  | .close brace => [⟨.symbol .rightBrace, some brace⟩]

namespace Program

/-- The spelling of a program. -/
def patterns : Program → List Pattern
  | .empty => []
  | .variable type name initializer rest =>
    (Declaration.variable type name initializer).patterns ++ rest.patterns
  | .prototype h rest => (Declaration.prototype h).patterns ++ rest.patterns
  | .definition h body rest =>
    (Declaration.definition h).patterns ++ body.patterns ++ [.symbol .rightBrace] ++ rest.patterns
  | .assembly sources rest => (Declaration.assembly sources).patterns ++ rest.patterns

/-- The tokens spell the program. -/
def SpelledBy (p : Program) (ts : List Token) : Prop := Spells p.patterns ts []

/-- Whether tokens spell a program is decided by its patterns, so that concrete programs can be
tried. -/
instance (p : Program) (ts : List Token) : Decidable (p.SpelledBy ts) :=
  Spells.decidable p.patterns ts []

end Program

/-! ## Rules -/

/-- The names of the parameters. -/
def FunctionHeader.parameterNames (h : FunctionHeader) : List String :=
  h.parameters.map (·.name.lexeme)

/-- The token is a number or a character, with a value that the type can take. -/
structure Token.Initializes (t : Token) (type : TypeSpec) : Prop where
  constant : t.kind = .number ∨ t.kind = .fractional ∨ t.kind = .character
  literal : t.literal.isSome
  whole : type.isPointer → t.kind ≠ .fractional
  pointee : type.isPointer → type.base ≠ .void

/-- Whether a token may initialize a variable is decided by its kind and its literal. -/
instance (t : Token) (type : TypeSpec) : Decidable (t.Initializes type) :=
  decidable_of_iff
    ((t.kind = .number ∨ t.kind = .fractional ∨ t.kind = .character) ∧ t.literal.isSome ∧
      (type.isPointer → t.kind ≠ .fractional) ∧ (type.isPointer → type.base ≠ .void))
    ⟨fun ⟨hconstant, hliteral, hwhole, hpointee⟩ => ⟨hconstant, hliteral, hwhole, hpointee⟩,
      fun h => ⟨h.constant, h.literal, h.whole, h.pointee⟩⟩

/-- The function of a definition whose first node has the number `next`. Its body comes
after its own node, that of its parameters and theirs. -/
def Function.ofDefinition (h : FunctionHeader) (next : Nat) : Function :=
  { Function.ofHeader h with body := some (next + 2 + h.parameters.length) }

/-- A function that was declared may be declared again: to give it its body. -/
def Function.Precedes (f g : Function) : Prop :=
  f.name = g.name → f.body = none ∧ g.body.isSome ∧ f.sameSignature g

/-- Whether a function may come after another one is decided by their names and bodies. -/
instance : DecidableRel Function.Precedes := fun f g =>
  inferInstanceAs (Decidable (f.name = g.name → _))

namespace Program

/-- The variables of all bodies, by their types and initializers. -/
def allVariables : Program → List (TypeSpec × Option Token)
  | .empty => []
  | .variable type _ initializer rest => (type, initializer) :: rest.allVariables
  | .prototype _ rest | .assembly _ rest => rest.allVariables
  | .definition _ body rest => body.allVariables ++ rest.allVariables

/-- The names of the variables that are declared in the program itself, not in the
bodies of its functions. -/
def variableNames : Program → List String
  | .empty => []
  | .variable _ name _ rest => name.lexeme :: rest.variableNames
  | .prototype _ rest | .definition _ _ rest | .assembly _ rest => rest.variableNames

/-- The names of the functions that are defined in the program itself. -/
def functionNames : Program → List String
  | .empty => []
  | .definition h _ rest => h.name.lexeme :: rest.functionNames
  | .variable _ _ _ rest | .prototype _ rest | .assembly _ rest => rest.functionNames

/-- The names of the nodes of its variables and blocks of assembly, which tell how many
nodes there are before; the first node has the number `index`. -/
def generatedNames (index : Nat) : Program → List String
  | .empty => []
  | .variable _ _ _ rest => s!"Variable{index}" :: rest.generatedNames (index + 1)
  | .prototype _ rest => rest.generatedNames index
  | .definition _ _ rest => rest.generatedNames (index + 1)
  | .assembly _ rest => s!"Assembly{index}" :: rest.generatedNames (index + 1)

/-- The bodies of the functions, each with the names of its parameters. -/
def innerBodies : Program → List (List String × Program)
  | .empty => []
  | .variable _ _ _ rest | .prototype _ rest | .assembly _ rest => rest.innerBodies
  | .definition h body rest =>
    (h.parameterNames, body) :: body.innerBodies ++ rest.innerBodies

/-- All bodies, that of the unit included. -/
def bodies (p : Program) : List (List String × Program) := ([], p) :: p.innerBodies

/-- The parameters of every function have names of their own, none of which is visible
where the function is declared: a variable before it, or a parameter of a function
around it. -/
def FreshParameters (visible : List String) : Program → Prop
  | .empty => True
  | .variable _ name _ rest => rest.FreshParameters (name.lexeme :: visible)
  | .prototype h rest =>
    (h.parameterNames.Nodup ∧ ∀ name ∈ h.parameterNames, name ∉ visible) ∧
      rest.FreshParameters visible
  | .definition h body rest =>
    (h.parameterNames.Nodup ∧ ∀ name ∈ h.parameterNames, name ∉ visible) ∧
      body.FreshParameters (h.parameterNames ++ visible) ∧ rest.FreshParameters visible
  | .assembly _ rest => rest.FreshParameters visible

/-- Whether parameters are fresh is decided function by function. -/
instance FreshParameters.decidable :
    (visible : List String) → (p : Program) → Decidable (p.FreshParameters visible)
  | _, .empty => inferInstanceAs (Decidable True)
  | visible, .variable _ name _ rest => decidable (name.lexeme :: visible) rest
  | visible, .prototype _ rest =>
    let _ := decidable visible rest
    inferInstanceAs (Decidable (_ ∧ rest.FreshParameters visible))
  | visible, .definition h body rest =>
    let _ := decidable (h.parameterNames ++ visible) body
    let _ := decidable visible rest
    inferInstanceAs (Decidable
      (_ ∧ body.FreshParameters (h.parameterNames ++ visible) ∧ rest.FreshParameters visible))
  | visible, .assembly _ rest => decidable visible rest

/-- The number of nodes of a program. -/
def nodeCount : Program → Nat
  | .empty => 0
  | .variable _ _ _ rest => 1 + rest.nodeCount
  | .prototype _ rest => rest.nodeCount
  | .definition h body rest => 3 + h.parameters.length + body.nodeCount + rest.nodeCount
  | .assembly sources rest => 1 + sources.length + rest.nodeCount

/-- The functions as they are declared one after the other, if the nodes are numbered
from `next` on. -/
def declared (next : Nat) : Program → List Function
  | .empty => []
  | .variable _ _ _ rest => rest.declared (next + 1)
  | .prototype h rest => Function.ofHeader h :: rest.declared next
  | .definition h body rest =>
    Function.ofDefinition h next :: body.declared (next + 3 + h.parameters.length) ++
      rest.declared (next + 3 + h.parameters.length + body.nodeCount)
  | .assembly sources rest => rest.declared (next + 1 + sources.length)

/-- The rules that a program has to obey. -/
structure Lawful (p : Program) : Prop where
  /-- No variable is `void`. -/
  types : ∀ v ∈ p.allVariables, ¬ v.1.isVoid
  /-- Variables start with constants of their types. -/
  initializers : ∀ v ∈ p.allVariables, ∀ t ∈ v.2, t.Initializes v.1
  /-- The variables and parameters of a body have different names. -/
  names : ∀ b ∈ p.bodies, (b.1 ++ b.2.variableNames).Nodup
  /-- Parameters have new names. -/
  parameters : p.FreshParameters []
  /-- A function is new, or gives a prototype of the same signature its body. -/
  functions : (p.declared 2).Pairwise Function.Precedes
  /-- The node of a function is not called like one of a variable or of assembly beside
  it. -/
  nodes : ∀ b ∈ p.bodies, ∀ name ∈ b.2.functionNames, name ∉ b.2.generatedNames 0

/-- Whether a program obeys the rules is decided rule by rule, so that concrete programs can be
tried. -/
instance (p : Program) : Decidable p.Lawful :=
  decidable_of_iff
    ((∀ v ∈ p.allVariables, ¬ v.1.isVoid) ∧ (∀ v ∈ p.allVariables, ∀ t ∈ v.2, t.Initializes v.1) ∧
      (∀ b ∈ p.bodies, (b.1 ++ b.2.variableNames).Nodup) ∧ p.FreshParameters [] ∧
      (p.declared 2).Pairwise Function.Precedes ∧
      ∀ b ∈ p.bodies, ∀ name ∈ b.2.functionNames, name ∉ b.2.generatedNames 0)
    ⟨fun ⟨htypes, hinitializers, hnames, hparameters, hfunctions, hnodes⟩ =>
        ⟨htypes, hinitializers, hnames, hparameters, hfunctions, hnodes⟩,
      fun h => ⟨h.types, h.initializers, h.names, h.parameters, h.functions, h.nodes⟩⟩

end Program

/-! ## What a program describes -/

/-- The constant that an initializer gives to a variable. Which number of the range of the type
it is for a whole number, `Constant.eq_toInt_iff` says by itself. -/
def initialConstant (type : TypeSpec) (initializer : Option Token) : Option Constant :=
  (initializer.bind (·.literal)).bind (Constant.ofLiteral type.base)

/-- The node of a variable. -/
def variableOutline (index : Nat) (type : TypeSpec) (initializer : Option Token) : Outline :=
  .node s!"Variable{index}"
    ([("Ptr", .flag type.isPointer), ("Type", .type type.base)] ++
      (initialConstant type initializer).toList.map fun c => ("Value", .constant c)) []

/-- The nodes of parameters. -/
def argumentOutlines (index : Nat) : List Parameter → List Outline
  | [] => []
  | p :: ps =>
    .node s!"Argument{index}"
      [("Name", .text p.name.lexeme), ("Ptr", .flag p.type.isPointer), ("Type", .type p.type.base)]
      [] :: argumentOutlines (index + 1) ps

/-- The nodes of a function with those of its body. -/
def functionOutline (h : FunctionHeader) (inside : List Outline) : Outline :=
  .node h.name.lexeme []
    [.node "Arguments" [] (argumentOutlines 0 h.parameters), .node "Body" [] inside]

/-- The nodes of the strings of a block of assembly. -/
def sourceOutlines (index : Nat) : List Token → List Outline
  | [] => []
  | t :: ts =>
    .node s!"SourceBlock{index}" [("Source", .text t.lexeme)] [] :: sourceOutlines (index + 1) ts

/-- The nodes of a block of assembly. -/
def assemblyOutline (index : Nat) (sources : List Token) : Outline :=
  .node s!"Assembly{index}" [] (sourceOutlines 0 sources)

namespace Program

/-- The nodes of a program in a body that has `index` nodes already. -/
def outlines (index : Nat) : Program → List Outline
  | .empty => []
  | .variable type _ initializer rest =>
    variableOutline index type initializer :: rest.outlines (index + 1)
  | .prototype _ rest => rest.outlines index
  | .definition h body rest =>
    functionOutline h (body.outlines 0) :: rest.outlines (index + 1)
  | .assembly sources rest =>
    assemblyOutline index sources :: rest.outlines (index + 1)

/-- The tree of a program. -/
def outline (p : Program) : Outline := .node "Unit" [] [.node "Body" [] (p.outlines 0)]

end Program

/-- Functions with one more, in the place of the one of its name if there is one. -/
def Function.place (f : Function) : List Function → List Function
  | [] => [f]
  | g :: gs => if g.name = f.name then f :: gs else g :: place f gs

/-- The functions of a program, in the order of their first declarations. -/
def Program.functions (p : Program) : List Function :=
  (p.declared 2).foldl (fun table f => f.place table) []

end SmallC
