import SmallC.Proofs.Parse.Acceptance

/-!
# Open bodies

Between two declarations some bodies may be open. What each of them holds so far is a
program, and so is what is around it; closing them all, from the innermost outwards, would
change neither the tree nor the functions. So at any time the tree and the functions are
those of a program that obeys the rules.
-/

namespace SmallC

/-- The functions that a declaration declares, if the next node has the number `next`. -/
def Declaration.declared (next : Nat) : Declaration → List Function
  | .prototype h => [Function.ofHeader h]
  | .definition h => [Function.ofDefinition h next]
  | .variable _ _ _ | .assembly _ | .close _ => []

namespace Environment

variable {e e' : Environment} {p : Program} {depth : Nat} {d : Declaration} {ds : List Declaration}

/-! ## One declaration -/

/-- A brace changes neither the tree nor the functions. -/
theorem eq_of_closeBody {brace : Token} (h : e.closeBody brace = .ok e') :
    e'.tree = e.tree ∧ e'.functions = e.functions := by
  simp only [closeBody] at h
  split at h
  · cases h
  · cases h
    exact ⟨rfl, rfl⟩

/-- A definition that is entered opens the body of its function, and the rules allow it. -/
theorem opened_of_takes {header : FunctionHeader} (he : e.Valid)
    (h : e.Takes (.definition header) e') :
    e.context.AllowsFunction (.ofDefinition header e.context.next) ∧ Opened e header e' := by
  obtain ⟨place, hadmissible, hopen⟩ := h
  obtain ⟨rfl, -, hfunction⟩ := (admissible_definition_iff e.context.next).mp hadmissible
  obtain ⟨e₁, hopen₁, hopened⟩ := exists_opened he (not_mem_of_opened he hopen)
  obtain rfl : e' = e₁ := Except.ok.inj (hopen.symm.trans hopen₁)
  exact ⟨hfunction, hopened⟩

/-- What a declaration does that is entered: the present body grows by an admissible
program, or the body of a function is opened that the rules allow, or the present body is
closed. -/
theorem takes_cases (he : e.Valid) (h : e.Takes d e') :
    (∃ p : Program, p.Admissible e.context ∧ Grown e p e' ∧
        p.declared e.context.next = d.declared e.context.next) ∨
      (∃ header, d = .definition header ∧
        e.context.AllowsFunction (.ofDefinition header e.context.next) ∧ Opened e header e') ∨
      ∃ brace, d = .close brace ∧ e.closeBody brace = .ok e' := by
  have henters := enters_singleton_iff.mpr h
  cases d with
  | «variable» type name initializer =>
    have hadds := adds_variable he type name initializer
    exact .inl ⟨.variable type name initializer .empty,
      ⟨hadds.allowed_of_enters e' henters, trivial⟩, hadds.grown henters, rfl⟩
  | prototype header =>
    have hadds := adds_prototype (e := e) header
    exact .inl ⟨.prototype header .empty, ⟨hadds.allowed_of_enters e' henters, trivial⟩,
      hadds.grown henters, rfl⟩
  | assembly sources =>
    have hadds := adds_assembly he sources
    exact .inl ⟨.assembly sources .empty, ⟨hadds.allowed_of_enters e' henters, trivial⟩,
      hadds.grown henters, rfl⟩
  | definition header =>
    obtain ⟨hfunction, hopened⟩ := opened_of_takes he h
    exact .inr (.inl ⟨header, rfl, hfunction, hopened⟩)
  | close brace => exact .inr (.inr ⟨brace, rfl, h⟩)

/-- The functions that are declared are allowed, and they are placed in the table. -/
theorem functions_of_takes (he : e.Valid) (h : e.Takes d e') :
    Function.Admits e.functions.toList (d.declared e.context.next) ∧
      e'.functions.toList =
        (d.declared e.context.next).foldl (fun table f => f.place table) e.functions.toList := by
  rcases takes_cases he h with ⟨p, hp, hgrown, hdeclared⟩ | ⟨header, rfl, hfunction, hopened⟩ |
    ⟨brace, rfl, hclose⟩
  · rw [← hdeclared]
    exact ⟨((Program.admissible_iff_lawfulIn _ p).mp hp).functions, hgrown.functions⟩
  · exact ⟨⟨hfunction, trivial⟩, hopened.functions⟩
  · rw [(eq_of_closeBody hclose).2]
    exact ⟨trivial, rfl⟩

/-- Nodes are only added below the present body. -/
theorem exists_graft_of_takes (he : e.Valid) (h : e.Takes d e') :
    ∃ os, e'.tree.nodes = graft e.tree.nodes e.body os := by
  rcases takes_cases he h with ⟨p, -, hgrown, -⟩ | ⟨header, -, -, hopened⟩ | ⟨brace, -, hclose⟩
  · exact ⟨_, hgrown.nodes⟩
  · exact ⟨_, hopened.nodes⟩
  · exact ⟨[], by rw [(eq_of_closeBody hclose).1, graft_nil]⟩

/-! ## Inside of functions -/

/-- An environment inside of `depth` functions: the unit has grown by a program, then the
body of a function was opened and has grown by a program, and so on. -/
inductive Inside : Nat → Environment → Prop
  | unit {p : Program} {e : Environment} : Grown empty p e → Inside 0 e
  | body {depth : Nat} {h : FunctionHeader} {p : Program} {e opened e' : Environment} :
    Inside depth e → Opened e h opened → Grown opened p e' → Inside (depth + 1) e'

namespace Inside

/-- Inside of functions the tree is as it should be, and the present body is in it. -/
theorem valid (he : Inside depth e) : e.Valid := by
  induction he with
  | unit hgrown => exact hgrown.valid Parse.valid_empty
  | body _ hopened hgrown ih => exact hgrown.valid (hopened.valid ih)

/-- Inside of `depth` functions `depth` bodies are open. -/
theorem depth_eq (he : Inside depth e) : e.depth = depth := by
  induction he with
  | unit hgrown =>
    rw [Environment.depth, hgrown.outerScopes]
    rfl
  | body _ hopened hgrown ih =>
    rw [Environment.depth, hgrown.outerScopes, hopened.outerScopes, List.length_cons]
    exact congrArg (· + 1) ih

/-- More declarations in the present body. -/
theorem grown (he : Inside depth e) (h : Grown e p e') : Inside depth e' := by
  cases he with
  | unit hgrown => exact .unit (hgrown.append h Parse.valid_empty)
  | body he hopened hgrown => exact .body he hopened (hgrown.append h (hopened.valid he.valid))

/-- The end of the present body leads back to the body around it. -/
theorem exists_closed (he : Inside (depth + 1) e) (brace : Token) :
    ∃ e', e.closeBody brace = .ok e' ∧ Inside depth e' := by
  cases he with
  | body he hopened hgrown =>
    obtain ⟨e', hclose, hgrown'⟩ := Environment.exists_closed he.valid hopened hgrown brace
    exact ⟨e', hclose, he.grown hgrown'⟩

/-- A declaration stays inside of functions, of as many or of one more or less. -/
theorem takes (he : Inside depth e) (h : e.Takes d e') : ∃ depth', Inside depth' e' := by
  rcases takes_cases he.valid h with ⟨p, -, hgrown, -⟩ | ⟨header, -, -, hopened⟩ |
    ⟨brace, -, hclose⟩
  · exact ⟨depth, he.grown hgrown⟩
  · exact ⟨depth + 1, .body he hopened (adds_nil.grown rfl)⟩
  · have hdepth : depth = e'.depth + 1 := by rw [← he.depth_eq, depth_of_closeBody hclose]
    subst hdepth
    obtain ⟨e₁, hclose₁, he₁⟩ := he.exists_closed brace
    obtain rfl : e' = e₁ := Except.ok.inj (hclose.symm.trans hclose₁)
    exact ⟨_, he₁⟩

/-- Declarations stay inside of functions. -/
theorem enters (he : Inside depth e) (h : e.Enters ds e') : ∃ depth', Inside depth' e' := by
  induction ds generalizing e depth with
  | nil =>
    obtain rfl := h
    exact ⟨depth, he⟩
  | cons d ds ih =>
    obtain ⟨e₁, hd, hds⟩ := h
    obtain ⟨depth₁, he₁⟩ := he.takes hd
    exact ih he₁ hds

end Inside

/-- At the start no function has been entered. -/
theorem inside_empty : Inside 0 empty := .unit (adds_nil.grown rfl)

/-- An environment that declarations give from nothing has a tree as it should be, and the present
body in it. -/
theorem valid_of_enters (h : empty.Enters ds e) : e.Valid := by
  obtain ⟨depth, he⟩ := inside_empty.enters h
  exact he.valid

/-! ## Closing what is open -/

/-- All open bodies can be closed, and nothing is added by that. -/
theorem Inside.exists_closing (he : Inside depth e) :
    ∃ ds e', e.Enters ds e' ∧ e'.depth = 0 ∧ e'.tree = e.tree ∧ e'.functions = e.functions := by
  induction depth generalizing e with
  | zero => exact ⟨[], e, rfl, he.depth_eq, rfl, rfl⟩
  | succ depth ih =>
    obtain ⟨e₁, hclose, he₁⟩ := he.exists_closed default
    obtain ⟨htree₁, hfunctions₁⟩ := eq_of_closeBody hclose
    obtain ⟨ds, e', hds, hdepth, htree, hfunctions⟩ := ih he₁
    exact ⟨.close default :: ds, e', ⟨e₁, hclose, hds⟩, hdepth, htree.trans htree₁,
      hfunctions.trans hfunctions₁⟩

/-- Whatever declarations are entered, what they leave is what a program describes that
obeys the rules: it has these declarations, and the ends of the bodies that are open. -/
theorem exists_lawful_of_enters (h : empty.Enters ds e) :
    ∃ p : Program, p.Lawful ∧ e.tree.nodes.toList = p.outline.nodes none 0 ∧
      e.functions.toList = p.functions := by
  obtain ⟨depth, he⟩ := inside_empty.enters h
  obtain ⟨closing, e', hclosing, hdepth, htree, hfunctions⟩ := he.exists_closing
  have henters : empty.Enters (ds ++ closing) e' := enters_append_iff.mpr ⟨e, h, hclosing⟩
  obtain ⟨p, hlists⟩ := exists_lists_of_nests (nests_of_enters henters hdepth)
  have hadds := adds_of_lists hlists Parse.valid_empty
  have hadmissible := hadds.allowed_of_enters e' henters
  rw [Parse.context_empty] at hadmissible
  have hgrown : Grown empty p e' := hadds.grown henters
  rw [← htree, ← hfunctions]
  exact ⟨p, Program.admissible_start_iff.mp hadmissible, Parse.nodes_of_grown hgrown,
    Parse.functions_of_grown hgrown⟩

end Environment

end SmallC
