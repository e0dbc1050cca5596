import SmallC.Proofs.Parse.Functions

/-!
# Entering declarations one after the other

The declarations of a program, with the ends of the bodies among them, are entered
exactly if each is allowed by those before it. What they add to the environment is what
the program describes.
-/

namespace SmallC

open Outline

namespace Program

/-- One program after another. -/
def append : Program → Program → Program
  | .empty, q => q
  | .variable type name initializer rest, q => .variable type name initializer (rest.append q)
  | .prototype h rest, q => .prototype h (rest.append q)
  | .definition h body rest, q => .definition h body (rest.append q)
  | .assembly sources rest, q => .assembly sources (rest.append q)

/-- The variables of two programs one after the other. -/
theorem variableNames_append (p q : Program) :
    (p.append q).variableNames = p.variableNames ++ q.variableNames := by
  induction p with
  | empty => rfl
  | «variable» type name initializer rest ih =>
    rw [append, variableNames, ih, variableNames, List.cons_append]
  | prototype h rest ih => exact ih
  | definition h body rest _ ih => exact ih
  | assembly sources rest ih => exact ih

/-- The nodes of two programs one after the other: those of the second count on. -/
theorem outlines_append (p q : Program) (index : Nat) :
    (p.append q).outlines index =
      p.outlines index ++ q.outlines (index + (p.outlines index).length) := by
  have hnext (r : Program) (n : Nat) : n + ((r.outlines (n + 1)).length + 1) =
      n + 1 + (r.outlines (n + 1)).length := by omega
  induction p generalizing index with
  | empty => rfl
  | «variable» type name initializer rest ih =>
    rw [append, outlines, ih, outlines, List.length_cons, hnext, List.cons_append]
  | prototype h rest ih => exact ih index
  | definition h body rest _ ih =>
    rw [append, outlines, ih, outlines, List.length_cons, hnext, List.cons_append]
  | assembly sources rest ih =>
    rw [append, outlines, ih, outlines, List.length_cons, hnext, List.cons_append]

/-- The functions of two programs one after the other: those of the second find their nodes behind
the nodes of the first. -/
theorem declared_append (p q : Program) (next : Nat) :
    (p.append q).declared next = p.declared next ++ q.declared (next + p.nodeCount) := by
  induction p generalizing next with
  | empty => rfl
  | «variable» type name initializer rest ih =>
    rw [append, declared, ih, declared, nodeCount, Nat.add_assoc]
  | prototype h rest ih => rw [append, declared, ih, declared, nodeCount, List.cons_append]
  | definition h body rest _ ih =>
    have hnext : next + (3 + h.parameters.length + body.nodeCount + rest.nodeCount) =
        next + 3 + h.parameters.length + body.nodeCount + rest.nodeCount := by omega
    rw [append, declared, ih, declared, nodeCount, hnext, List.append_assoc]
  | assembly sources rest ih =>
    have hnext : next + (1 + sources.length + rest.nodeCount) =
        next + 1 + sources.length + rest.nodeCount := by omega
    rw [append, declared, ih, declared, nodeCount, hnext]

end Program

namespace Environment

variable {e e' e₁ : Environment} {p q : Program} {ds ds' : List Declaration} {d : Declaration}

/-- An environment grows by one program after the other. -/
theorem Grown.append (h : Grown e p e₁) (h' : Grown e₁ q e') (he : e.Valid) :
    Grown e (p.append q) e' := by
  have hcount : e₁.childCount = e.childCount + (p.outlines e.childCount).length := by
    rw [childCount_eq, h.context he, Context.after, List.length_append, List.length_map,
      ← childCount_eq]
  constructor
  · rw [h'.nodes, h.nodes, h.body, graft_graft he.body_lt, hcount, Program.outlines_append]
  · rw [h'.body, h.body]
  · rw [h'.scope, h.scope, Program.variableNames_append, List.reverse_append, List.append_assoc]
  · rw [h'.outerScopes, h.outerScopes]
  · rw [h'.functions, h.functions, h.nodes, size_graft, sizes_outlines, Program.declared_append,
      List.foldl_append]

/-! ## Declarations -/

/-- Entering a declaration gives an environment. -/
def Takes (e : Environment) : Declaration → Environment → Prop
  | .variable type name initializer, e' => e.declareVariable type name initializer = .ok e'
  | .prototype h, e' => (∃ place, e.admissible h false = .ok place) ∧ e' = e.addPrototype h
  | .definition h, e' =>
    ∃ place, e.admissible h true = .ok place ∧ e.openFunction h place = .ok e'
  | .assembly sources, e' => e.addAssembly sources = .ok e'
  | .close brace, e' => e.closeBody brace = .ok e'

/-- A declaration is entered exactly if it changes the environment by its rules, and then it takes
no tokens but its own. -/
theorem enter_eq_ok_iff {ts rest : List Token} :
    e.enter d ts = (.ok e', rest) ↔ e.Takes d e' ∧ rest = ts := by
  cases d with
  | prototype h =>
    simp only [enter, Takes]
    cases e.admissible h false <;> simp [eq_comm]
  | definition h =>
    simp only [enter, Takes]
    cases e.admissible h true <;> simp [eq_comm]
  | «variable» type name initializer => simp [enter, Takes, eq_comm]
  | assembly sources => simp [enter, Takes, eq_comm]
  | close brace => simp [enter, Takes, eq_comm]

/-- There is one way to enter a declaration. -/
theorem Takes.unique (h : e.Takes d e') (h₁ : e.Takes d e₁) : e' = e₁ := by
  have henter : e.enter d [] = (.ok e', []) := enter_eq_ok_iff.mpr ⟨h, rfl⟩
  rw [enter_eq_ok_iff.mpr ⟨h₁, rfl⟩] at henter
  cases henter
  rfl

/-- Entering declarations one after the other gives an environment. -/
def Enters (e : Environment) : List Declaration → Environment → Prop
  | [], e' => e = e'
  | d :: ds, e' => ∃ e₁, e.Takes d e₁ ∧ Enters e₁ ds e'

/-- Declarations are entered in two parts if they are entered one part after the other. -/
theorem enters_append_iff :
    e.Enters (ds ++ ds') e' ↔ ∃ e₁, e.Enters ds e₁ ∧ e₁.Enters ds' e' := by
  induction ds generalizing e with
  | nil => simp [Enters]
  | cons d ds ih =>
    simp only [List.cons_append, Enters, ih]
    constructor
    · rintro ⟨e₂, hd, e₁, hds, hds'⟩
      exact ⟨e₁, ⟨e₂, hd, hds⟩, hds'⟩
    · rintro ⟨e₁, ⟨e₂, hd, hds⟩, hds'⟩
      exact ⟨e₂, hd, e₁, hds, hds'⟩

/-- Entering one declaration is entering a list of it alone. -/
theorem enters_singleton_iff : e.Enters [d] e' ↔ e.Takes d e' := by
  simp [Enters]

/-- There is one way to enter declarations. -/
theorem Enters.unique (h : e.Enters ds e') (h₁ : e.Enters ds e₁) : e' = e₁ := by
  induction ds generalizing e with
  | nil => exact h.symm.trans h₁
  | cons d ds ih =>
    obtain ⟨e₂, hd, hds⟩ := h
    obtain ⟨e₃, hd', hds'⟩ := h₁
    obtain rfl := hd.unique hd'
    exact ih hds hds'

/-! ## Programs -/

/-- Declarations are entered exactly under a condition, and then they add a program. -/
structure Adds (e : Environment) (ds : List Declaration) (allowed : Prop) (p : Program) :
    Prop where
  allowed_of_enters : ∀ e', e.Enters ds e' → allowed
  exists_enters : allowed → ∃ e', e.Enters ds e' ∧ Grown e p e'

variable {allowed allowed' : Prop}

/-- The environment into which declarations bring it has grown by the program that they add. -/
theorem Adds.grown (h : e.Adds ds allowed p) (henters : e.Enters ds e') : Grown e p e' := by
  obtain ⟨e₁, henters₁, hgrown⟩ := h.exists_enters (h.allowed_of_enters e' henters)
  rw [henters.unique henters₁]
  exact hgrown

/-- What adds a program under a condition may come before what adds another one to all that the
first has grown to. -/
theorem Adds.append (h : e.Adds ds allowed p) (he : e.Valid)
    (h' : ∀ e₁, Grown e p e₁ → e₁.Adds ds' allowed' q) :
    e.Adds (ds ++ ds') (allowed ∧ allowed') (p.append q) := by
  constructor
  · intro e' henters
    obtain ⟨e₁, hds, hds'⟩ := enters_append_iff.mp henters
    exact ⟨h.allowed_of_enters e₁ hds, (h' e₁ (h.grown hds)).allowed_of_enters e' hds'⟩
  · rintro ⟨hallowed, hallowed'⟩
    obtain ⟨e₁, hds, hgrown⟩ := h.exists_enters hallowed
    obtain ⟨e', hds', hgrown'⟩ := (h' e₁ hgrown).exists_enters hallowed'
    exact ⟨e', enters_append_iff.mpr ⟨e₁, hds, hds'⟩, hgrown.append hgrown' he⟩

/-- No declarations add nothing, without any condition. -/
theorem adds_nil : e.Adds [] True .empty := by
  refine ⟨fun _ _ => trivial, fun _ => ⟨e, rfl, ?_⟩⟩
  exact ⟨graft_nil.symm, rfl, rfl, rfl, rfl⟩

/-- A variable is entered exactly if the rules allow it. -/
theorem adds_variable (he : e.Valid) (type : TypeSpec) (name : Token) (initializer : Option Token) :
    e.Adds [.variable type name initializer] (e.context.AllowsVariable type name initializer)
      (.variable type name initializer .empty) := by
  constructor
  · intro e' henters
    exact allowsVariable_of_declared he (enters_singleton_iff.mp henters)
  · intro hallowed
    obtain ⟨e', hdeclared, hgrown⟩ := exists_declared he hallowed
    exact ⟨e', enters_singleton_iff.mpr hdeclared, hgrown⟩

/-- A prototype is entered exactly if the rules allow its parameters and its name. -/
theorem adds_prototype (h : FunctionHeader) :
    e.Adds [.prototype h] (e.context.AllowsParameters h ∧ e.context.AllowsFunction (.ofHeader h))
      (.prototype h .empty) := by
  constructor
  · intro e' henters
    exact admissible_prototype_iff.mp (enters_singleton_iff.mp henters).1
  · intro hallowed
    refine ⟨e.addPrototype h, enters_singleton_iff.mpr ⟨?_, rfl⟩, grown_addPrototype hallowed.2⟩
    exact admissible_prototype_iff.mpr hallowed

/-- A block of assembly is entered exactly if its name is free. -/
theorem adds_assembly (he : e.Valid) (sources : List Token) :
    e.Adds [.assembly sources] e.context.AllowsAssembly (.assembly sources .empty) := by
  constructor
  · intro e' henters
    exact allowsAssembly_of_added he (enters_singleton_iff.mp henters)
  · intro hallowed
    obtain ⟨e', hadded, hgrown⟩ := exists_added he hallowed
    exact ⟨e', enters_singleton_iff.mpr hadded, hgrown⟩

/-- A function with its whole body, given what the declarations of the body add to any
environment in which it has just been opened. -/
theorem adds_definition (he : e.Valid) (h : FunctionHeader) (brace : Token)
    (hbody : ∀ e₁, Opened e h e₁ → e₁.Adds ds allowed p) :
    e.Adds (.definition h :: ds ++ [.close brace])
      ((e.context.AllowsParameters h ∧
        e.context.AllowsFunction (.ofDefinition h e.context.next) ∧
        h.name.lexeme ∉ e.context.siblings) ∧ allowed)
      (.definition h p .empty) := by
  constructor
  · intro e' henters
    obtain ⟨e₂, ⟨e₁, ⟨place, hadmissible, hopen⟩, hds⟩, -⟩ := enters_append_iff.mp henters
    obtain ⟨rfl, hparameters, hfunction⟩ :=
      (admissible_definition_iff e.context.next).mp hadmissible
    have hname : h.name.lexeme ∉ e.context.siblings := not_mem_of_opened he hopen
    obtain ⟨e₃, hopen₃, hopened⟩ := exists_opened he hname
    rw [hopen] at hopen₃
    cases hopen₃
    exact ⟨⟨hparameters, hfunction, hname⟩, (hbody e₁ hopened).allowed_of_enters e₂ hds⟩
  · rintro ⟨⟨hparameters, hfunction, hname⟩, hallowed⟩
    obtain ⟨e₁, hopen, hopened⟩ := exists_opened he hname
    obtain ⟨e₂, hds, hgrown⟩ := (hbody e₁ hopened).exists_enters hallowed
    obtain ⟨e₃, hclose, hgrown₃⟩ := exists_closed he hopened hgrown brace
    have hadmissible := (admissible_definition_iff _).mpr ⟨rfl, hparameters, hfunction⟩
    have hdefinition : e.Enters (.definition h :: ds) e₂ := ⟨e₁, ⟨_, hadmissible, hopen⟩, hds⟩
    exact ⟨e₃, enters_append_iff.mpr ⟨e₂, hdefinition, enters_singleton_iff.mpr hclose⟩, hgrown₃⟩

end Environment

/-- The declarations of a program one after the other. The body of a function is ended
by some token, which says nothing more. -/
def Program.Lists : Program → List Declaration → Prop
  | .empty, ds => ds = []
  | .variable type name initializer rest, ds =>
    ∃ after, rest.Lists after ∧ ds = [.variable type name initializer] ++ after
  | .prototype h rest, ds => ∃ after, rest.Lists after ∧ ds = [.prototype h] ++ after
  | .definition h body rest, ds =>
    ∃ inside brace after, body.Lists inside ∧ rest.Lists after ∧
      ds = (.definition h :: inside ++ [.close brace]) ++ after
  | .assembly sources rest, ds => ∃ after, rest.Lists after ∧ ds = [.assembly sources] ++ after

namespace Environment

/-- The declarations of a program are entered exactly if it is admissible. -/
theorem adds_of_lists {e : Environment} {p : Program} {ds : List Declaration} (hp : p.Lists ds)
    (he : e.Valid) : e.Adds ds (p.Admissible e.context) p := by
  induction p generalizing e ds with
  | empty =>
    obtain rfl := hp
    exact adds_nil
  | «variable» type name initializer rest ih =>
    obtain ⟨after, hafter, rfl⟩ := hp
    refine (adds_variable he type name initializer).append he fun e₁ hgrown => ?_
    rw [← hgrown.context he]
    exact ih hafter (hgrown.valid he)
  | prototype h rest ih =>
    obtain ⟨after, hafter, rfl⟩ := hp
    refine (adds_prototype h).append he fun e₁ hgrown => ?_
    rw [← hgrown.context he]
    exact ih hafter (hgrown.valid he)
  | definition h body rest ihbody ih =>
    obtain ⟨inside, brace, after, hinside, hafter, rfl⟩ := hp
    have hbody (e₁ : Environment) (hopened : Opened e h e₁) :
        e₁.Adds inside (body.Admissible (e.context.inside h)) body := by
      rw [← hopened.context he]
      exact ihbody hinside (hopened.valid he)
    refine (adds_definition he h brace hbody).append he fun e₁ hgrown => ?_
    rw [← hgrown.context he]
    exact ih hafter (hgrown.valid he)
  | assembly sources rest ih =>
    obtain ⟨after, hafter, rfl⟩ := hp
    refine (adds_assembly he sources).append he fun e₁ hgrown => ?_
    rw [← hgrown.context he]
    exact ih hafter (hgrown.valid he)

end Environment

end SmallC
