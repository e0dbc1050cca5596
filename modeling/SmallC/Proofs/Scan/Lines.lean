import SmallC.Proofs.Scan.Places

/-!
# Scanning is local to lines

A line feed ends every segment but a string, as the end of the text would end it. So what is
scanned before a line feed does not depend on what comes behind it, and what comes behind it
is scanned as if it were alone, only further down.
-/

namespace SmallC

/-! ## Segments before a line feed -/

namespace Segment

variable {c : Char} {cs : List Char}

end Segment

/-! ## Places further down -/

/-- The position some lines further down, in the same column. -/
def Position.movedDown (n : Nat) (p : Position) : Position := ⟨clamp (p.line.toNat + n), p.column⟩

/-- A token some lines further down. -/
def Token.movedDown (n : Nat) (t : Token) : Token := { t with position := t.position.movedDown n }

/-- A diagnostic some lines further down in the text. -/
def Diagnostic.movedDown (n : Nat) : Diagnostic → Diagnostic
  | .spelling position fault => .spelling (position.movedDown n) fault
  | .declaration position fault => .declaration (position.movedDown n) fault
  | .directive location fault => .directive location fault

namespace Position

end Position

namespace Segment

variable {before : List Char} {segments : List Segment}

end Segment

end SmallC
