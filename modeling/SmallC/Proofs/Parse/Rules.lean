import SmallC.Proofs.Parse.Context
import SmallC.Proofs.Parse.Nodes

/-!
# The rules for a program

Every declaration of a program is allowed by those before it exactly if the program as
a whole obeys the rules. In between, each rule is said of a program that comes after
other declarations.
-/

namespace SmallC

/-! ## New functions -/

namespace Function

variable {f g : Function} {fs gs table : List Function}

/-- Functions are allowed one after the other by those in a table. -/
def Admits : List Function → List Function → Prop
  | _, [] => True
  | table, f :: fs =>
    (∀ g, table.find? (·.name = f.name) = some g → g.Precedes f) ∧ Admits (f.place table) fs

/-- Functions are admitted one after the other, the later ones into the table that the earlier ones
leave. -/
theorem admits_append_iff :
    Admits table (fs ++ gs) ↔
      Admits table fs ∧ Admits (fs.foldl (fun table f => f.place table) table) gs := by
  induction fs generalizing table with
  | nil => simp [Admits]
  | cons f fs ih => simp only [List.cons_append, Admits, ih, List.foldl_cons, and_assoc]

/-- The function that is found by a name is the one that was placed under it last. -/
theorem find?_place (f : Function) (table : List Function) (name : String) :
    (f.place table).find? (·.name = name) =
      if f.name = name then some f else table.find? (·.name = name) := by
  induction table with
  | nil =>
    by_cases h : f.name = name <;> simp [place, h]
  | cons g table ih =>
    rw [place]
    by_cases h : g.name = f.name
    · by_cases hf : f.name = name <;> simp [h, hf]
    · rw [if_neg h, List.find?_cons, List.find?_cons, ih]
      by_cases hg : g.name = name
      · have hf : f.name ≠ name := fun hf => h (hg.trans hf.symm)
        simp [hg, hf]
      · simp [hg]

/-- A function that precedes one of its name has no body, so nothing precedes it. -/
theorem Precedes.not_precedes (h : f.Precedes g) (hname : f.name = g.name) (k : Function)
    (hk : k.name = f.name) : ¬ k.Precedes f := by
  intro hprecedes
  obtain ⟨hnone, -⟩ := h hname
  obtain ⟨-, hsome, -⟩ := hprecedes hk
  rw [hnone] at hsome
  cases hsome

/-- Functions are allowed if they are by the table and by each other. -/
theorem admits_iff :
    Admits table fs ↔ fs.Pairwise Precedes ∧
      ∀ f ∈ fs, ∀ g, table.find? (·.name = f.name) = some g → g.Precedes f := by
  induction fs generalizing table with
  | nil => simp [Admits]
  | cons f fs ih =>
    rw [Admits, ih, List.pairwise_cons, List.forall_mem_cons]
    simp only [find?_place]
    constructor
    · rintro ⟨hf, hpairwise, hfs⟩
      have hprecedes (g : Function) (hg : g ∈ fs) : f.Precedes g := by
        intro hname
        have := hfs g hg f
        rw [if_pos hname] at this
        exact this rfl hname
      refine ⟨⟨hprecedes, hpairwise⟩, hf, fun g hg k hk => ?_⟩
      have hkname : k.name = g.name := by simpa using List.find?_some hk
      by_cases hname : f.name = g.name
      · rw [← hname] at hk
        exact absurd (hf k hk) ((hprecedes g hg).not_precedes hname k (hkname.trans hname.symm))
      · have := hfs g hg k
        rw [if_neg hname] at this
        exact this hk
    · rintro ⟨⟨hprecedes, hpairwise⟩, hf, hfs⟩
      refine ⟨hf, hpairwise, fun g hg k hk => ?_⟩
      by_cases hname : f.name = g.name
      · rw [if_pos hname] at hk
        cases hk
        exact hprecedes g hg
      · rw [if_neg hname] at hk
        exact hfs g hg k hk

/-- The first functions of all are allowed if they are by each other. -/
theorem admits_nil_iff : Admits [] fs ↔ fs.Pairwise Precedes := by
  rw [admits_iff]
  exact and_iff_left fun _ _ _ h => nomatch h

end Function

/-! ## Rules after other declarations -/

namespace Program

/-- The names of the nodes of a program in a body that has `index` nodes already. -/
def nodeNames (index : Nat) (p : Program) : List String := (p.outlines index).map Outline.name

/-- A program obeys the rules where it comes after other declarations. -/
structure LawfulIn (c : Context) (p : Program) : Prop where
  types : ∀ v ∈ p.allVariables, ¬ v.1.isVoid
  initializers : ∀ v ∈ p.allVariables, ∀ t ∈ v.2, t.Initializes v.1
  names : NewNames c.scope p.variableNames
  innerNames : ∀ b ∈ p.innerBodies, NewNames b.1 b.2.variableNames
  parameters : p.FreshParameters (c.scope ++ c.outer)
  functions : Function.Admits c.functions (p.declared c.next)
  nodes : NewNames c.siblings (p.nodeNames c.siblings.length)
  innerNodes : ∀ b ∈ p.innerBodies, (b.2.nodeNames 0).Nodup

variable {c : Context} {rest : Program}

/-- The empty program breaks no rules. -/
theorem lawfulIn_empty : Program.empty.LawfulIn c where
  types _ h := nomatch h
  initializers _ h := nomatch h
  names := .nil_right
  innerNames _ h := nomatch h
  parameters := trivial
  functions := trivial
  nodes := .nil_right
  innerNodes _ h := nomatch h

/-- The first node of a program, and those after it. -/
theorem newNames_nodeNames_iff {taken : List String} {name : String} :
    NewNames taken (name :: rest.nodeNames (taken.length + 1)) ↔
      name ∉ taken ∧ NewNames (taken ++ [name]) (rest.nodeNames (taken ++ [name]).length) := by
  have hmem (other : String) : other ∈ name :: taken ↔ other ∈ taken ++ [name] := by
    rw [List.mem_cons, List.mem_append, List.mem_singleton]
    exact or_comm
  rw [NewNames.cons_iff, NewNames.congr hmem, List.length_append, List.length_singleton]

/-- A variable in front of a program is allowed, and the rest after it. -/
theorem lawfulIn_variable_iff {type : TypeSpec} {name : Token} {initializer : Option Token} :
    (Program.variable type name initializer rest).LawfulIn c ↔
      c.AllowsVariable type name initializer ∧
        rest.LawfulIn (c.after (.variable type name initializer .empty)) := by
  constructor
  · intro h
    obtain ⟨hvoid, htypes⟩ := List.forall_mem_cons.mp h.types
    obtain ⟨hinitializer, hinitializers⟩ := List.forall_mem_cons.mp h.initializers
    obtain ⟨hname, hnames⟩ := NewNames.cons_iff.mp h.names
    obtain ⟨hnode, hnodes⟩ := newNames_nodeNames_iff.mp h.nodes
    exact ⟨⟨hvoid, hname, hinitializer, hnode⟩,
      ⟨htypes, hinitializers, hnames, h.innerNames, h.parameters, h.functions, hnodes,
        h.innerNodes⟩⟩
  · rintro ⟨hallowed, h⟩
    exact ⟨List.forall_mem_cons.mpr ⟨hallowed.notVoid, h.types⟩,
      List.forall_mem_cons.mpr ⟨hallowed.constant, h.initializers⟩,
      NewNames.cons_iff.mpr ⟨hallowed.newName, h.names⟩, h.innerNames, h.parameters, h.functions,
      newNames_nodeNames_iff.mpr ⟨hallowed.newNode, h.nodes⟩, h.innerNodes⟩

/-- A block of assembly in front of a program is allowed, and the rest after it. -/
theorem lawfulIn_assembly_iff {sources : List Token} :
    (Program.assembly sources rest).LawfulIn c ↔
      c.AllowsAssembly ∧ rest.LawfulIn (c.after (.assembly sources .empty)) := by
  have hnext : c.next + (1 + sources.length + 0) = c.next + 1 + sources.length := by omega
  have hfunctions : Function.Admits (c.after (.assembly sources .empty)).functions
      (rest.declared (c.after (.assembly sources .empty)).next) ↔
      Function.Admits c.functions ((Program.assembly sources rest).declared c.next) := by
    simp only [Context.after, declared, nodeCount, hnext, List.foldl_nil]
  constructor
  · intro h
    obtain ⟨hnode, hnodes⟩ := newNames_nodeNames_iff.mp h.nodes
    exact ⟨hnode, ⟨h.types, h.initializers, h.names, h.innerNames, h.parameters,
      hfunctions.mpr h.functions, hnodes, h.innerNodes⟩⟩
  · rintro ⟨hallowed, h⟩
    exact ⟨h.types, h.initializers, h.names, h.innerNames, h.parameters, hfunctions.mp h.functions,
      newNames_nodeNames_iff.mpr ⟨hallowed, h.nodes⟩, h.innerNodes⟩

/-- A prototype in front of a program is allowed, and the rest after it. -/
theorem lawfulIn_prototype_iff {h : FunctionHeader} :
    (Program.prototype h rest).LawfulIn c ↔
      (c.AllowsParameters h ∧ c.AllowsFunction (.ofHeader h)) ∧
        rest.LawfulIn (c.after (.prototype h .empty)) := by
  have hnodes : NewNames (c.after (.prototype h .empty)).siblings
        (rest.nodeNames (c.after (.prototype h .empty)).siblings.length) ↔
      NewNames c.siblings ((Program.prototype h rest).nodeNames c.siblings.length) := by
    simp only [Context.after, outlines, List.map_nil, List.append_nil]
    rfl
  constructor
  · intro hp
    obtain ⟨hparameters, hfresh⟩ := hp.parameters
    obtain ⟨hfunction, hfunctions⟩ := hp.functions
    exact ⟨⟨hparameters, hfunction⟩, ⟨hp.types, hp.initializers, hp.names, hp.innerNames, hfresh,
      hfunctions, hnodes.mpr hp.nodes, hp.innerNodes⟩⟩
  · rintro ⟨⟨hparameters, hfunction⟩, hp⟩
    exact ⟨hp.types, hp.initializers, hp.names, hp.innerNames, ⟨hparameters, hp.parameters⟩,
      ⟨hfunction, hp.functions⟩, hnodes.mp hp.nodes, hp.innerNodes⟩

/-- A definition in front of a program is allowed, and so are its body inside of it and the rest
after it. -/
theorem lawfulIn_definition_iff {h : FunctionHeader} {body : Program} :
    (Program.definition h body rest).LawfulIn c ↔
      ((c.AllowsParameters h ∧ c.AllowsFunction (.ofDefinition h c.next) ∧
        h.name.lexeme ∉ c.siblings) ∧ body.LawfulIn (c.inside h)) ∧
        rest.LawfulIn (c.after (.definition h body .empty)) := by
  have hnext : c.next + (3 + h.parameters.length + body.nodeCount + 0) =
      c.next + 3 + h.parameters.length + body.nodeCount := by omega
  have hfunctions : Function.Admits c.functions ((Program.definition h body rest).declared c.next) ↔
      c.AllowsFunction (.ofDefinition h c.next) ∧
        Function.Admits (c.inside h).functions (body.declared (c.inside h).next) ∧
        Function.Admits (c.after (.definition h body .empty)).functions
          (rest.declared (c.after (.definition h body .empty)).next) := by
    simp only [Context.after, Context.inside, declared, nodeCount, hnext, List.foldl_cons,
      List.cons_append, List.append_nil, Function.Admits, Function.admits_append_iff]
    rfl
  constructor
  · intro hp
    obtain ⟨htypes, htypes'⟩ := List.forall_mem_append.mp hp.types
    obtain ⟨hinitializers, hinitializers'⟩ := List.forall_mem_append.mp hp.initializers
    obtain ⟨hnames, hinner⟩ := List.forall_mem_cons.mp hp.innerNames
    obtain ⟨hinner, hinner'⟩ := List.forall_mem_append.mp hinner
    obtain ⟨hparameters, hfresh, hfresh'⟩ := hp.parameters
    obtain ⟨hfunction, hadmits, hadmits'⟩ := hfunctions.mp hp.functions
    obtain ⟨hnode, hnodes'⟩ := newNames_nodeNames_iff.mp hp.nodes
    obtain ⟨hnodes, hinnerNodes⟩ := List.forall_mem_cons.mp hp.innerNodes
    obtain ⟨hinnerNodes, hinnerNodes'⟩ := List.forall_mem_append.mp hinnerNodes
    exact ⟨⟨⟨hparameters, hfunction, hnode⟩,
      ⟨htypes, hinitializers, hnames, hinner, hfresh, hadmits, NewNames.nil_left.mpr hnodes,
        hinnerNodes⟩⟩,
      ⟨htypes', hinitializers', hp.names, hinner', hfresh', hadmits', hnodes', hinnerNodes'⟩⟩
  · rintro ⟨⟨⟨hparameters, hfunction, hnode⟩, hbody⟩, hrest⟩
    exact ⟨List.forall_mem_append.mpr ⟨hbody.types, hrest.types⟩,
      List.forall_mem_append.mpr ⟨hbody.initializers, hrest.initializers⟩, hrest.names,
      List.forall_mem_cons.mpr ⟨hbody.names,
        List.forall_mem_append.mpr ⟨hbody.innerNames, hrest.innerNames⟩⟩,
      ⟨hparameters, hbody.parameters, hrest.parameters⟩,
      hfunctions.mpr ⟨hfunction, hbody.functions, hrest.functions⟩,
      newNames_nodeNames_iff.mpr ⟨hnode, hrest.nodes⟩,
      List.forall_mem_cons.mpr ⟨NewNames.nil_left.mp hbody.nodes,
        List.forall_mem_append.mpr ⟨hbody.innerNodes, hrest.innerNodes⟩⟩⟩

/-- Each declaration is allowed by those before it exactly if the whole program obeys the
rules. -/
theorem admissible_iff_lawfulIn (c : Context) (p : Program) : p.Admissible c ↔ p.LawfulIn c := by
  induction p generalizing c with
  | empty => exact iff_of_true trivial lawfulIn_empty
  | «variable» type name initializer rest ih => rw [Admissible, ih, lawfulIn_variable_iff]
  | prototype h rest ih => rw [Admissible, ih, lawfulIn_prototype_iff]
  | definition h body rest ihbody ih => rw [Admissible, ihbody, ih, lawfulIn_definition_iff]
  | assembly sources rest ih => rw [Admissible, ih, lawfulIn_assembly_iff]

/-! ## Rules for a whole program -/

variable {p : Program} {index next : Nat}

/-- Fresh parameters and the variables of their body have different names. -/
theorem FreshParameters.nodup {visible : List String} (h : p.FreshParameters visible) :
    ∀ b ∈ p.innerBodies, b.1.Nodup := by
  induction p generalizing visible with
  | empty => exact fun _ hb => nomatch hb
  | «variable» type name initializer rest ih => exact ih h
  | prototype header rest ih => exact ih h.2
  | definition header body rest ihbody ih =>
    obtain ⟨⟨hnodup, -⟩, hbody, hrest⟩ := h
    exact List.forall_mem_cons.mpr
      ⟨hnodup, List.forall_mem_append.mpr ⟨ihbody hbody, ih hrest⟩⟩
  | assembly sources rest ih => exact ih h

/-! ### Names of functions -/

/-- A function that is defined is declared with a body. -/
theorem exists_declared_of_mem {name : String} (hname : name ∈ p.functionNames) (next : Nat) :
    ∃ f ∈ p.declared next, f.name = name := by
  induction p generalizing next with
  | empty => cases hname
  | «variable» type _ initializer rest ih => exact ih hname (next + 1)
  | prototype header rest ih =>
    obtain ⟨f, hf, rfl⟩ := ih hname next
    exact ⟨f, List.mem_cons_of_mem _ hf, rfl⟩
  | definition header body rest ihbody ih =>
    rcases List.mem_cons.mp hname with rfl | hname
    · exact ⟨.ofDefinition header next, List.mem_cons_self, rfl⟩
    · obtain ⟨f, hf, rfl⟩ := ih hname (next + 3 + header.parameters.length + body.nodeCount)
      exact ⟨f, List.mem_append_right _ hf, rfl⟩
  | assembly sources rest ih => exact ih hname (next + 1 + sources.length)

/-- No function is defined twice. -/
theorem nodup_functionNames (h : (p.declared next).Pairwise Function.Precedes) :
    p.functionNames.Nodup ∧ ∀ b ∈ p.innerBodies, b.2.functionNames.Nodup := by
  induction p generalizing next with
  | empty => exact ⟨List.nodup_nil, fun _ hb => nomatch hb⟩
  | «variable» type name initializer rest ih => exact ih h
  | prototype header rest ih => exact ih (List.pairwise_cons.mp h).2
  | definition header body rest ihbody ih =>
    obtain ⟨hfirst, hothers⟩ := List.pairwise_cons.mp h
    obtain ⟨hbody, hrest, -⟩ := List.pairwise_append.mp hothers
    obtain ⟨hnames, hinner⟩ := ih hrest
    have hnew : header.name.lexeme ∉ rest.functionNames := by
      intro hmem
      obtain ⟨f, hf, hname⟩ :=
        exists_declared_of_mem hmem (next + 3 + header.parameters.length + body.nodeCount)
      obtain ⟨hnone, -⟩ := hfirst f (List.mem_append_right _ hf) hname.symm
      cases hnone
    exact ⟨List.nodup_cons.mpr ⟨hnew, hnames⟩, List.forall_mem_cons.mpr
      ⟨(ihbody hbody).1, List.forall_mem_append.mpr ⟨(ihbody hbody).2, hinner⟩⟩⟩
  | assembly sources rest ih => exact ih h

/-! ### Names of nodes -/

/-- The nodes of a program are named after its functions, or by counting. -/
theorem mem_nodeNames_iff {name : String} :
    name ∈ p.nodeNames index ↔ name ∈ p.functionNames ∨ name ∈ p.generatedNames index := by
  induction p generalizing index with
  | empty => simp [nodeNames, outlines, functionNames, generatedNames]
  | «variable» type token initializer rest ih =>
    have hcons : name ∈ nodeNames index (.variable type token initializer rest) ↔
        name = s!"Variable{index}" ∨ name ∈ rest.nodeNames (index + 1) := List.mem_cons
    rw [hcons, ih, functionNames, generatedNames, List.mem_cons]
    exact or_left_comm
  | prototype header rest ih => exact ih
  | definition header body rest _ ih =>
    have hcons : name ∈ nodeNames index (.definition header body rest) ↔
        name = header.name.lexeme ∨ name ∈ rest.nodeNames (index + 1) := List.mem_cons
    rw [hcons, ih, functionNames, generatedNames, List.mem_cons]
    exact or_assoc.symm
  | assembly sources rest ih =>
    have hcons : name ∈ nodeNames index (.assembly sources rest) ↔
        name = s!"Assembly{index}" ∨ name ∈ rest.nodeNames (index + 1) := List.mem_cons
    rw [hcons, ih, functionNames, generatedNames, List.mem_cons]
    exact or_left_comm

/-- The names of variables and of assembly have different first letters. -/
theorem variable_ne_assembly (m n : Nat) : s!"Variable{m}" ≠ s!"Assembly{n}" := by
  intro h
  have hletters : (toString "Variable" ++ toString m).toList.head? =
      (toString "Assembly" ++ toString n).toList.head? := congrArg (·.toList.head?) h
  have hfirst : (toString "Variable").toList.head? = some 'V' := by decide
  have hfirst' : (toString "Assembly").toList.head? = some 'A' := by decide
  rw [String.toList_append, String.toList_append, List.head?_append, List.head?_append, hfirst,
    hfirst', Option.some_or, Option.some_or] at hletters
  revert hletters
  decide

/-- A generated name tells a number that is not below the first one. -/
theorem le_of_mem_generatedNames {i : Nat}
    (h : s!"Variable{i}" ∈ p.generatedNames index ∨ s!"Assembly{i}" ∈ p.generatedNames index) :
    index ≤ i := by
  induction p generalizing index with
  | empty => rcases h with h | h <;> cases h
  | «variable» type name initializer rest ih =>
    rcases h with h | h
    · rcases List.mem_cons.mp h with h | h
      · exact Nat.le_of_eq (numbered_injective h).symm
      · exact Nat.le_of_succ_le (ih (.inl h))
    · rcases List.mem_cons.mp h with h | h
      · exact absurd h.symm (variable_ne_assembly index i)
      · exact Nat.le_of_succ_le (ih (.inr h))
  | prototype header rest ih => exact ih h
  | definition header body rest _ ih => exact Nat.le_of_succ_le (ih h)
  | assembly sources rest ih =>
    rcases h with h | h
    · rcases List.mem_cons.mp h with h | h
      · exact absurd h (variable_ne_assembly i index)
      · exact Nat.le_of_succ_le (ih (.inl h))
    · rcases List.mem_cons.mp h with h | h
      · exact Nat.le_of_eq (numbered_injective h).symm
      · exact Nat.le_of_succ_le (ih (.inr h))

/-- One more generated name, before the names of some nodes. -/
theorem nodup_cons_nodeNames_iff {name : String} (hname : name ∉ p.generatedNames index)
    (hp : (p.nodeNames index).Nodup ↔ ∀ f ∈ p.functionNames, f ∉ p.generatedNames index) :
    (name :: p.nodeNames index).Nodup ↔
      ∀ f ∈ p.functionNames, f ∉ name :: p.generatedNames index := by
  rw [List.nodup_cons, mem_nodeNames_iff, hp]
  simp only [List.mem_cons, not_or]
  constructor
  · rintro ⟨⟨hnew, -⟩, hnames⟩ f hf
    exact ⟨fun heq => hnew (heq ▸ hf), hnames f hf⟩
  · intro h
    exact ⟨⟨fun hmem => (h name hmem).1 rfl, hname⟩, fun f hf => (h f hf).2⟩

/-- Only the node of a function can have the name of another one. -/
theorem nodup_nodeNames_iff (h : p.functionNames.Nodup) :
    (p.nodeNames index).Nodup ↔ ∀ f ∈ p.functionNames, f ∉ p.generatedNames index := by
  induction p generalizing index with
  | empty => exact iff_of_true List.nodup_nil fun _ hf => nomatch hf
  | «variable» type name initializer rest ih =>
    refine nodup_cons_nodeNames_iff (fun hmem => ?_) (ih h)
    exact Nat.lt_irrefl _ (le_of_mem_generatedNames (.inl hmem))
  | prototype header rest ih => exact ih h
  | definition header body rest _ ih =>
    obtain ⟨hnew, hnames⟩ := List.nodup_cons.mp h
    have hcons : nodeNames index (.definition header body rest) =
        header.name.lexeme :: rest.nodeNames (index + 1) := rfl
    rw [hcons, List.nodup_cons, mem_nodeNames_iff, ih hnames, functionNames, List.forall_mem_cons]
    simp only [hnew, false_or]
    rfl
  | assembly sources rest ih =>
    refine nodup_cons_nodeNames_iff (fun hmem => ?_) (ih h)
    exact Nat.lt_irrefl _ (le_of_mem_generatedNames (.inr hmem))

end Program

/-- What is there before the first declaration: the node of the unit and that of its
body. -/
def Context.start : Context := ⟨[], [], [], [], 2⟩

/-- The rules for a whole program are those for each of its declarations. -/
theorem Program.admissible_start_iff {p : Program} : p.Admissible .start ↔ p.Lawful := by
  rw [admissible_iff_lawfulIn]
  constructor
  · intro h
    have hpairwise := Function.admits_nil_iff.mp h.functions
    obtain ⟨hnames, hinner⟩ := nodup_functionNames hpairwise
    refine ⟨h.types, h.initializers, ?_, h.parameters, hpairwise, ?_⟩
    · refine List.forall_mem_cons.mpr ⟨NewNames.nil_left.mp h.names, fun b hb => ?_⟩
      exact NewNames.append_iff.mpr ⟨h.parameters.nodup b hb, h.innerNames b hb⟩
    · refine List.forall_mem_cons.mpr ⟨?_, fun b hb => ?_⟩
      · exact (nodup_nodeNames_iff hnames).mp (NewNames.nil_left.mp h.nodes)
      · exact (nodup_nodeNames_iff (hinner b hb)).mp (h.innerNodes b hb)
  · intro h
    obtain ⟨hnames, hinner⟩ := nodup_functionNames h.functions
    obtain ⟨hscope, hscopes⟩ := List.forall_mem_cons.mp h.names
    obtain ⟨hnodes, hbodies⟩ := List.forall_mem_cons.mp h.nodes
    exact
      { types := h.types
        initializers := h.initializers
        names := NewNames.nil_left.mpr hscope
        innerNames := fun b hb => (NewNames.append_iff.mp (hscopes b hb)).2
        parameters := h.parameters
        functions := Function.admits_nil_iff.mpr h.functions
        nodes := NewNames.nil_left.mpr ((nodup_nodeNames_iff hnames).mpr hnodes)
        innerNodes := fun b hb => (nodup_nodeNames_iff (hinner b hb)).mpr (hbodies b hb) }

end SmallC
