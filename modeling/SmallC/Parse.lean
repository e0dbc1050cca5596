import SmallC.Environment
import SmallC.Log

/-!
# Parsing

The declarations of a list of tokens are entered one after the other. A fault is
noted, and the next declaration is looked for after the tokens of the faulty one,
so that there always is a tree.
-/

namespace SmallC

/-- The declarations of a list of tokens, and their faults. -/
structure Parse where
  /-- The tree. -/
  tree : Tree
  /-- The functions, in the order of their first declarations. -/
  functions : Array Function
  /-- The faults, in order. -/
  diagnostics : List Diagnostic

namespace Parse

/-- There is no fault. -/
def succeeded (p : Parse) : Bool := p.diagnostics.isEmpty

/-- The function of a name. -/
def function? (p : Parse) (name : String) : Option Function := p.functions.find? (·.name = name)

/-- The environment after all declarations of some tokens, and their faults after
those of `faults`. -/
def declarations (last : Position) (e : Environment) (faults : Array Diagnostic)
    (tokens : List Token) : Environment × Array Diagnostic :=
  match tokens with
  | [] => (e, faults)
  | t :: ts =>
    match _h : e.declare last t ts with
    | (.ok e', rest) => declarations last e' faults rest
    | (.error d, rest) => declarations last e (faults.push d) rest
termination_by tokens.length
decreasing_by
  all_goals
    have hlength : rest.length ≤ ts.length := by simpa [_h] using e.length_declare last t ts
    simp only [List.length_cons]
    omega

/-- The fault of a body that is open after the last token, named by its function. -/
def unclosed (last : Position) (e : Environment) : List Diagnostic :=
  if e.depth = 0 then []
  else
    let owner := ((e.tree.parent? e.body).map e.tree.name).getD ""
    [.declaration last (.unclosedBody owner)]

/-- The declarations of a list of tokens. -/
def ofTokens (tokens : List Token) : Parse :=
  let last := (tokens.getLast?.map (·.position)).getD default
  let (e, faults) := declarations last Environment.empty #[] tokens
  ⟨e.tree, e.functions, faults.toList ++ unclosed last e⟩

/-- What the parser reports, given the number of tokens. -/
def record (p : Parse) (count : Nat) : Log.Record :=
  let found := s!"{p.tree.size} nodes, {p.functions.size} functions"
  ⟨.debug, .parser, s!"parsed {count} tokens: {found}, {p.diagnostics.length} errors"⟩

end Parse

end SmallC
