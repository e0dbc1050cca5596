import SmallC.Proofs.Parse.Program

/-!
# The rules for one declaration

The rules speak about a whole program. Here they are said for each declaration in turn,
given what is declared before it.
-/

namespace SmallC

/-! ## New names -/

/-- Names are different from each other and from those that are taken. -/
def NewNames (taken names : List String) : Prop := names.Nodup ∧ ∀ name ∈ names, name ∉ taken

namespace NewNames

variable {taken taken' names : List String} {name : String}

/-- Names are new one by one, each of them to those before it. -/
theorem cons_iff :
    NewNames taken (name :: names) ↔ name ∉ taken ∧ NewNames (name :: taken) names := by
  unfold NewNames
  rw [List.nodup_cons, List.forall_mem_cons]
  simp only [List.mem_cons, not_or]
  constructor
  · rintro ⟨⟨hname, hnodup⟩, hnew, hnews⟩
    exact ⟨hnew, hnodup, fun other hother => ⟨fun heq => hname (heq ▸ hother), hnews other hother⟩⟩
  · rintro ⟨hnew, hnodup, hnews⟩
    exact ⟨⟨fun hname => (hnews name hname).1 rfl, hnodup⟩, hnew,
      fun other hother => (hnews other hother).2⟩

/-- Only which names are taken matters, not how often or in which order. -/
theorem congr (h : ∀ name, name ∈ taken ↔ name ∈ taken') :
    NewNames taken names ↔ NewNames taken' names := by
  unfold NewNames
  simp only [h]

/-- Where nothing is taken names need only be different from each other. -/
theorem nil_left : NewNames [] names ↔ names.Nodup := by simp [NewNames]

/-- No names are always new. -/
theorem nil_right : NewNames taken [] := ⟨List.nodup_nil, fun _ h => nomatch h⟩

/-- Names that are new to others are different from these and from each other. -/
theorem append_iff : (taken ++ names).Nodup ↔ taken.Nodup ∧ NewNames taken names := by
  rw [List.nodup_append]
  unfold NewNames
  constructor
  · rintro ⟨htaken, hnames, hdisjoint⟩
    exact ⟨htaken, hnames, fun name hname hmem => hdisjoint name hmem name hname rfl⟩
  · rintro ⟨htaken, hnames, hnew⟩
    refine ⟨htaken, hnames, ?_⟩
    rintro name hmem _ hname rfl
    exact hnew name hname hmem

end NewNames

/-! ## The table of functions -/

namespace Function

variable {f : Function} {table : List Function}

/-- A function is placed by its index in the table, and at the end if it has none. -/
theorem place_eq (f : Function) (table : List Function) :
    f.place table =
      match table.findIdx? (·.name = f.name) with
      | some i => table.set i f
      | none => table ++ [f] := by
  induction table with
  | nil => rfl
  | cons g table ih =>
    rw [place, List.findIdx?_cons]
    by_cases h : g.name = f.name
    · simp [h]
    · rw [if_neg h, ih]
      cases table.findIdx? (·.name = f.name) <;> simp [h]

/-- A new name comes last, and an old one keeps its place. -/
theorem map_name_place (f : Function) (table : List Function) :
    (f.place table).map (·.name) =
      if f.name ∈ table.map (·.name) then table.map (·.name)
      else table.map (·.name) ++ [f.name] := by
  induction table with
  | nil => rfl
  | cons g table ih =>
    rw [place]
    by_cases hg : g.name = f.name
    · simp [hg]
    · rw [if_neg hg, List.map_cons, ih]
      by_cases hf : f.name ∈ table.map (·.name)
      · simp [hf]
      · simp [hf, Ne.symm hg]

/-- The names in the table after a function is placed are those before and its own. -/
theorem mem_map_name_place {name : String} :
    name ∈ (f.place table).map (·.name) ↔ name = f.name ∨ name ∈ table.map (·.name) := by
  rw [map_name_place]
  by_cases h : f.name ∈ table.map (·.name)
  · rw [if_pos h]
    exact (or_iff_right_of_imp fun heq => heq ▸ h).symm
  · rw [if_neg h, List.mem_append, List.mem_singleton]
    exact or_comm

/-- A name stays in the table. -/
theorem mem_map_name_foldl_place {name : String} (h : name ∈ table.map (·.name))
    (fs : List Function) : name ∈ (fs.foldl (fun table f => f.place table) table).map (·.name) := by
  induction fs generalizing table with
  | nil => exact h
  | cons f fs ih => exact ih (mem_map_name_place.mpr (.inr h))

end Function

/-! ## Rules -/

/-- What the rules ask about the declarations so far. -/
structure Context where
  /-- The names of the variables in the present body. -/
  scope : List String
  /-- The names of the variables in the bodies around it. -/
  outer : List String
  /-- The names of the nodes in the present body. -/
  siblings : List String
  /-- The functions. -/
  functions : List Function
  /-- The number of the next node. -/
  next : Nat

namespace Context

/-- A variable may be declared. -/
structure AllowsVariable (c : Context) (type : TypeSpec) (name : Token)
    (initializer : Option Token) : Prop where
  notVoid : ¬ type.isVoid
  newName : name.lexeme ∉ c.scope
  constant : ∀ t ∈ initializer, t.Initializes type
  newNode : s!"Variable{c.siblings.length}" ∉ c.siblings

/-- A block of assembly may stand here. -/
def AllowsAssembly (c : Context) : Prop := s!"Assembly{c.siblings.length}" ∉ c.siblings

/-- The parameters have names of their own that are not visible yet. -/
def AllowsParameters (c : Context) (h : FunctionHeader) : Prop :=
  NewNames (c.scope ++ c.outer) h.parameterNames

/-- A function is new, or follows a prototype. -/
def AllowsFunction (c : Context) (f : Function) : Prop :=
  ∀ g, c.functions.find? (·.name = f.name) = some g → g.Precedes f

/-- The context after some declarations. -/
def after (c : Context) (p : Program) : Context where
  scope := p.variableNames.reverse ++ c.scope
  outer := c.outer
  siblings := c.siblings ++ (p.outlines c.siblings.length).map Outline.name
  functions := (p.declared c.next).foldl (fun table f => f.place table) c.functions
  next := c.next + p.nodeCount

/-- The context at the start of the body of a function. -/
def inside (c : Context) (h : FunctionHeader) : Context where
  scope := h.parameterNames
  outer := c.scope ++ c.outer
  siblings := []
  functions := (Function.ofDefinition h c.next).place c.functions
  next := c.next + 3 + h.parameters.length

end Context

/-- Each declaration of the program is allowed by those before it. -/
def Program.Admissible (c : Context) : Program → Prop
  | .empty => True
  | .variable type name initializer rest =>
    c.AllowsVariable type name initializer ∧
      rest.Admissible (c.after (.variable type name initializer .empty))
  | .prototype h rest =>
    (c.AllowsParameters h ∧ c.AllowsFunction (.ofHeader h)) ∧
      rest.Admissible (c.after (.prototype h .empty))
  | .definition h body rest =>
    ((c.AllowsParameters h ∧ c.AllowsFunction (.ofDefinition h c.next) ∧
      h.name.lexeme ∉ c.siblings) ∧ body.Admissible (c.inside h)) ∧
      rest.Admissible (c.after (.definition h body .empty))
  | .assembly sources rest =>
    c.AllowsAssembly ∧ rest.Admissible (c.after (.assembly sources .empty))

end SmallC
