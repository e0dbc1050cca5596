import SmallC.Proofs.Parse.OpenBodies

/-!
# Runs of the parser

The parser goes from declaration to declaration. What it has come to at any time is an
environment and the tokens that are left; a declaration that is refused leaves the
environment as it was and is forgotten, so that the environment is that of the declarations
which were entered.
-/

namespace SmallC

/-- What was declared was read, and then entered. -/
theorem Environment.exists_read_of_declare {e e' : Environment} {last : Position} {t : Token}
    {ts rest : List Token} (h : e.declare last t ts = (.ok e', rest)) :
    ∃ d mid, Declaration.read last t ts = (.ok d, mid) ∧ e.enter d mid = (.ok e', rest) := by
  unfold declare at h
  split at h
  · cases h
  · rename_i d mid hread
    exact ⟨d, mid, hread, h⟩

namespace Parse

variable {tokens ts rest : List Token} {entered : List Declaration} {e e' : Environment}

/-- The position of the last token. -/
def lastPosition (tokens : List Token) : Position := (tokens.getLast?.map (·.position)).getD default

/-- The parser goes on where an entered declaration leaves it. -/
theorem declarations_of_entered {last : Position} {t : Token}
    (hentered : e.declare last t ts = (.ok e', rest)) (faults : Array Diagnostic) :
    declarations last e faults (t :: ts) = declarations last e' faults rest := by
  rw [declarations]
  split
  · rename_i hdeclare
    rw [hentered] at hdeclare
    cases hdeclare
    rfl
  · rename_i hdeclare
    rw [hentered] at hdeclare
    cases hdeclare

/-- The parser goes on where a refused declaration leaves it, with the environment that it
had before. -/
theorem declarations_of_refused {last : Position} {t : Token} {fault : Diagnostic}
    (hrefused : e.declare last t ts = (.error fault, rest)) (faults : Array Diagnostic) :
    declarations last e faults (t :: ts) = declarations last e (faults.push fault) rest := by
  rw [declarations]
  split
  · rename_i hdeclare
    rw [hrefused] at hdeclare
    cases hdeclare
  · rename_i hdeclare
    rw [hrefused] at hdeclare
    cases hdeclare
    rfl

/-- On its way through some tokens the parser comes to an environment and the tokens
`rest`, having entered some declarations in turn. -/
inductive Reaches (tokens : List Token) : List Declaration → Environment → List Token → Prop
  | start : Reaches tokens [] .empty tokens
  | entered {entered : List Declaration} {e e' : Environment} {t : Token} {d : Declaration}
      {ts mid rest : List Token} :
    Reaches tokens entered e (t :: ts) →
    Declaration.read (lastPosition tokens) t ts = (.ok d, mid) → e.enter d mid = (.ok e', rest) →
    Reaches tokens (entered ++ [d]) e' rest
  | refused {entered : List Declaration} {e : Environment} {t : Token} {fault : Diagnostic}
      {ts rest : List Token} :
    Reaches tokens entered e (t :: ts) →
    e.declare (lastPosition tokens) t ts = (.error fault, rest) → Reaches tokens entered e rest

namespace Reaches

/-- The environment at any moment is the one that the entered declarations give. -/
theorem enters (h : Reaches tokens entered e rest) : Environment.empty.Enters entered e := by
  induction h with
  | start => rfl
  | entered _ _ henter ih =>
    have htakes := (Environment.enter_eq_ok_iff.mp henter).1
    exact Environment.enters_append_iff.mpr ⟨_, ih, Environment.enters_singleton_iff.mpr htakes⟩
  | refused _ _ ih => exact ih

/-- At every moment of a parse the tree is as it should be, and the present body is in it. -/
theorem valid (h : Reaches tokens entered e rest) : e.Valid :=
  Environment.valid_of_enters h.enters

/-- From any place on the way the parser goes on to the end of the tokens. -/
theorem declarations (h : Reaches tokens entered e rest) (faults : Array Diagnostic) :
    ∃ later, Reaches tokens (entered ++ later)
      (Parse.declarations (lastPosition tokens) e faults rest).1 [] := by
  fun_induction Parse.declarations (lastPosition tokens) e faults rest generalizing entered with
  | case1 e faults => exact ⟨[], by simpa using h⟩
  | case2 e faults t ts e₁ rest hdeclare ih =>
    obtain ⟨d, mid, hread, henter⟩ := Environment.exists_read_of_declare hdeclare
    obtain ⟨later, hlater⟩ := ih (h.entered hread henter)
    exact ⟨d :: later, by simpa using hlater⟩
  | case3 e faults t ts fault rest hdeclare ih => exact ih (h.refused hdeclare)

end Reaches

/-- What is returned is what the parser has come to at the end of the tokens. -/
theorem exists_reaches (tokens : List Token) :
    ∃ entered e, Reaches tokens entered e [] ∧ (ofTokens tokens).tree = e.tree ∧
      (ofTokens tokens).functions = e.functions := by
  have hstart : Reaches tokens [] .empty tokens := .start
  obtain ⟨entered, h⟩ := hstart.declarations #[]
  exact ⟨_, _, h, rfl, rfl⟩

end Parse

end SmallC
