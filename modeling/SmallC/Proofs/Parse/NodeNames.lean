import SmallC.Proofs.Parse.Ranges
import SmallC.Proofs.Parse.Bracketing
import SmallC.Proofs.Parse.Shape

/-!
# Names that are taken

The node of a variable or of a block of assembly is named by its place in the body, so that
two such nodes never have the same name, and a function has a node only once. A declaration
is therefore refused for the name of a node only if some function is called like a variable's
node or like that of a block of assembly.
-/

namespace SmallC

variable {α β : Type} {last position : Position} {ts rest : List Token} {taken : String}

/-! ## Reading -/

namespace Declaration

open Environment

/-- Reading has another fault, if it has one, than that the name of a node is taken. -/
def AsksNoNode (r : Reading α) : Prop :=
  ∀ position taken, r.1 ≠ .error (duplicateNode position taken)

/-- A reading that succeeds asks for no node. -/
theorem asksNoNode_ok (a : α) (rest : List Token) : AsksNoNode (.ok a, rest) :=
  fun _ _ h => nomatch h

/-- A token of the wrong kind is no fault of a node. -/
theorem asksNoNode_unexpected (t : Token) (expected : String) (rest : List Token) :
    AsksNoNode (α := α) (.error (unexpected t expected), rest) := by
  rintro _ _ ⟨⟩

/-- Tokens that end too early are no fault of a node. -/
theorem asksNoNode_ended (expected : String) (rest : List Token) :
    AsksNoNode (α := α) (.error (ended last expected), rest) := by
  rintro _ _ ⟨⟩

/-- Two readings one after the other ask for no node if neither of them does. -/
theorem asksNoNode_andThen {r : Reading α} {f : α → List Token → Reading β} (hr : AsksNoNode r)
    (hf : ∀ a us, AsksNoNode (f a us)) : AsksNoNode (andThen r f) := by
  rcases r with ⟨fault | a, rest⟩
  · intro position taken h
    exact hr position taken (congrArg Except.error (Except.error.inj h))
  · exact hf a rest

/-- Taking the next token asks for no node. -/
theorem asksNoNode_next (expected : String) (ts : List Token) :
    AsksNoNode (next last expected ts) := by
  cases ts with
  | nil => exact asksNoNode_ended expected []
  | cons t ts => exact asksNoNode_ok t ts

/-- Asking for a kind of token asks for no node. -/
theorem asksNoNode_expect (kind : TokenKind) (expected : String) (ts : List Token) :
    AsksNoNode (expect last kind expected ts) := by
  cases ts with
  | nil => exact asksNoNode_ended expected []
  | cons t ts =>
    rw [expect]
    split
    · exact asksNoNode_ok t ts
    · exact asksNoNode_unexpected t expected ts

/-- Reading a type asks for no node. -/
theorem asksNoNode_typeSpec (ts : List Token) : AsksNoNode (typeSpec last ts) := by
  cases ts with
  | nil => exact asksNoNode_ended _ []
  | cons t ts =>
    simp only [typeSpec]
    split
    · exact asksNoNode_unexpected t _ ts
    · split <;> exact asksNoNode_ok _ _

/-- Reading a parameter asks for no node. -/
theorem asksNoNode_parameter (ts : List Token) : AsksNoNode (parameter last ts) :=
  asksNoNode_andThen (asksNoNode_typeSpec ts) fun _ us =>
    asksNoNode_andThen (asksNoNode_expect _ _ us) fun _ vs => asksNoNode_ok _ vs

/-- Reading parameters asks for no node. -/
theorem asksNoNode_parameters (done : List Parameter) (ts : List Token) :
    AsksNoNode (parameters last done ts) := by
  fun_induction parameters last done ts with
  | case1 done ts fault rest h =>
    intro position taken heq
    have hparameter : AsksNoNode (parameter last ts) := asksNoNode_parameter ts
    refine hparameter position taken ?_
    rw [h]
    exact congrArg Except.error (Except.error.inj heq)
  | case2 => exact asksNoNode_ended _ _
  | case3 => exact asksNoNode_ok _ _
  | case4 done ts p t rest hparen hcomma h _ ih => exact ih
  | case5 => exact asksNoNode_unexpected _ _ _

/-- Reading a list of parameters asks for no node. -/
theorem asksNoNode_parameterList (ts : List Token) : AsksNoNode (parameterList last ts) := by
  unfold parameterList
  split
  · exact asksNoNode_ok _ _
  · exact asksNoNode_parameters [] ts

/-- Reading a function asks for no node. -/
theorem asksNoNode_readFunction (type : TypeSpec) (name : Token) (ts : List Token) :
    AsksNoNode (readFunction last type name ts) := by
  refine asksNoNode_andThen (asksNoNode_parameterList ts) fun ps us =>
    asksNoNode_andThen (asksNoNode_next _ us) fun t vs => ?_
  split
  · exact asksNoNode_ok _ vs
  · split
    · exact asksNoNode_ok _ vs
    · exact asksNoNode_unexpected t _ vs

/-- Reading a variable asks for no node. -/
theorem asksNoNode_readVariable (type : TypeSpec) (name : Token) (ts : List Token) :
    AsksNoNode (readVariable last type name ts) := by
  refine asksNoNode_andThen (asksNoNode_next _ ts) fun t us => ?_
  split
  · exact asksNoNode_andThen (asksNoNode_next _ us) fun _ vs =>
      asksNoNode_andThen (asksNoNode_expect _ _ vs) fun _ ws => asksNoNode_ok _ ws
  · split
    · exact asksNoNode_ok _ us
    · exact asksNoNode_unexpected t _ us

/-- Reading what starts with a type asks for no node. -/
theorem asksNoNode_readTyped (ts : List Token) : AsksNoNode (readTyped last ts) := by
  refine asksNoNode_andThen (asksNoNode_typeSpec ts) fun type us =>
    asksNoNode_andThen (asksNoNode_expect _ _ us) fun name vs => ?_
  split
  · exact asksNoNode_readFunction type name vs.tail
  · exact asksNoNode_readVariable type name vs

/-- Reading the strings of a block of assembly asks for no node. -/
theorem asksNoNode_sources (done ts : List Token) : AsksNoNode (sources last done ts) := by
  induction ts generalizing done with
  | nil => exact asksNoNode_ended _ []
  | cons t ts ih =>
    rw [sources]
    split
    · exact asksNoNode_ok _ ts
    · split
      · exact ih (t :: done)
      · exact asksNoNode_unexpected t _ ts

/-- Reading a block of assembly asks for no node. -/
theorem asksNoNode_readAssembly (ts : List Token) : AsksNoNode (readAssembly last ts) :=
  asksNoNode_andThen (asksNoNode_expect _ _ ts) fun _ us =>
    asksNoNode_andThen (asksNoNode_sources [] us) fun _ vs => asksNoNode_ok _ vs

/-- Reading alone never refuses a node: that is left to entering. -/
theorem asksNoNode_read (last : Position) (t : Token) (ts : List Token) :
    AsksNoNode (read last t ts) := by
  unfold read
  split
  · exact asksNoNode_readTyped (t :: ts)
  · split
    · exact asksNoNode_readAssembly ts
    · split
      · exact asksNoNode_ok _ ts
      · rintro _ _ ⟨⟩

end Declaration

/-! ## Entering -/

namespace Environment

variable {e : Environment} {type : TypeSpec} {name : Token} {initializer : Option Token}

/-- A constant that cannot be given is no fault of a node. -/
theorem initialValue_ne_duplicateNode (type : TypeSpec) (name : String)
    (initializer : Option Token) (position : Position) (taken : String) :
    initialValue type name initializer ≠ .error (duplicateNode position taken) := by
  intro h
  cases initializer with
  | none => cases h
  | some t =>
    simp only [initialValue] at h
    split at h
    · cases h
    split at h
    · cases h
    split at h
    · cases h
    split at h <;> cases h

/-- A variable is refused for the name of its node only if that is taken. -/
theorem mem_siblings_of_declareVariable (he : e.Valid)
    (hfault : e.declareVariable type name initializer = .error (duplicateNode position taken)) :
    s!"Variable{e.childCount}" ∈ e.context.siblings := by
  refine Classical.byContradiction fun hnew => ?_
  simp only [declareVariable] at hfault
  split at hfault
  · cases hfault
  split at hfault
  · cases hfault
  split at hfault
  · rename_i hvalue
    cases hfault
    exact initialValue_ne_duplicateNode _ _ _ _ _ hvalue
  · rename_i value hvalue
    obtain ⟨-, rfl⟩ := initialValue_eq_ok_iff.mp hvalue
    obtain ⟨tree, hsome, -⟩ := exists_variableNode name.lexeme type initializer he.body_lt hnew
    rw [hsome] at hfault
    cases hfault

/-- A block of assembly is only refused if the name of its node is taken: the names of the
nodes below it never are. -/
theorem mem_siblings_of_addAssembly {sources : List Token} {fault : Diagnostic} (he : e.Valid)
    (hfault : e.addAssembly sources = .error fault) :
    s!"Assembly{e.childCount}" ∈ e.context.siblings := by
  refine Classical.byContradiction fun hnew => ?_
  rw [childCount_eq] at hnew
  have hallowed : ∃ e', e.addAssembly sources = .ok e' ∧ Grown e (.assembly sources .empty) e' :=
    exists_added he hnew
  obtain ⟨e', hadded, -⟩ := hallowed
  rw [hadded] at hfault
  cases hfault

end Environment

/-- A name that is generated for the node of a variable or of a block of assembly. -/
def IsGenerated (name : String) : Prop :=
  ∃ k : Nat, name = s!"Variable{k}" ∨ name = s!"Assembly{k}"

/-- Names that are made by counting have a stem and a number, eight characters or more. -/
theorem length_of_isGenerated {name : String} (h : IsGenerated name) : 8 ≤ name.length := by
  have hlength (stem : String) (k : Nat) : stem.length ≤ s!"{stem}{k}".length := by
    rw [String.length_append]
    exact Nat.le_add_right _ _
  obtain ⟨k, rfl | rfl⟩ := h
  · exact hlength "Variable" k
  · exact hlength "Assembly" k

namespace Tree

variable {t : Tree} {body id k : Nat}

/-- What is in a body is a function, or its name is generated by its place. -/
theorem WellShaped.name_cases (ht : t.WellShaped) (hbody : t.IsBody body)
    (hid : (t.children body)[k]? = some id) :
    (∃ arguments inner, t.IsFunction id arguments inner) ∨
      t.name id = s!"Variable{k}" ∨ t.name id = s!"Assembly{k}" := by
  obtain ⟨form, hform, -⟩ := ht.children body hbody k id hid
  cases form with
  | function =>
    obtain ⟨name, arguments, inner, leaves, inside, hnode, harguments, -, hinner⟩ := hform
    refine .inl ⟨arguments, inner, ⟨children_of_node hnode, name_of_node harguments,
      name_of_node hinner⟩, body, hbody, Array.mem_of_getElem? hid⟩
  | «variable» =>
    obtain ⟨type, value, -, -, hnode⟩ := hform
    exact .inr (.inl (name_of_node hnode))
  | assembly =>
    obtain ⟨leaves, hnode, -⟩ := hform
    exact .inr (.inr (name_of_node hnode))

end Tree

namespace Parse

open Environment

variable {tokens : List Token} {t : Token} {e : Environment} {entered : List Declaration}
  {d : Declaration} {h : FunctionHeader}

/-- The parser reads a declaration on its way through some tokens, and then enters or refuses
it. -/
def Reads (tokens : List Token) (d : Declaration) : Prop :=
  ∃ entered e t ts rest, Reaches tokens entered e (t :: ts) ∧
    Declaration.read (lastPosition tokens) t ts = (.ok d, rest)

/-- The tokens that are left are the end of all tokens. -/
theorem Reaches.suffix (hreach : Reaches tokens entered e rest) : rest <:+ tokens := by
  have hdeclare {e : Environment} {t : Token} {ts rest : List Token}
      {result : Except Diagnostic Environment}
      (h : e.declare (lastPosition tokens) t ts = (result, rest)) : rest <:+ t :: ts := by
    obtain ⟨taken, -, htaken⟩ := e.exists_taken_of_declare (lastPosition tokens) t ts
    rw [h] at htaken
    exact ⟨taken, htaken.symm⟩
  induction hreach with
  | start => exact List.suffix_refl tokens
  | @entered entered e e' t d ts mid rest hreach hread henter ih =>
    have hentered : e.declare (lastPosition tokens) t ts = (.ok e', rest) := by
      simp only [Environment.declare, hread, henter]
    exact (hdeclare hentered).trans ih
  | refused _ hrefused ih => exact (hdeclare hrefused).trans ih

/-- Every token that a declaration has to have is among those that spell it. -/
theorem exists_fits_of_spells {ps : List Pattern} {q : Pattern} (hspells : Spells ps ts rest)
    (hq : q ∈ ps) : ∃ u ∈ ts, q.Fits u := by
  induction ps generalizing ts with
  | nil => cases hq
  | cons p ps ih =>
    obtain ⟨t, ts', rfl, ht, hps⟩ := spells_cons_iff.mp hspells
    rcases List.mem_cons.mp hq with rfl | hq
    · exact ⟨t, List.mem_cons_self, ht⟩
    · obtain ⟨u, hu, hfits⟩ := ih hps hq
      exact ⟨u, List.mem_cons_of_mem t hu, hfits⟩

/-- The name of a function that is defined is an identifier among the tokens. -/
theorem Reads.name_identifier (hreads : Reads tokens (.definition h)) :
    h.name ∈ tokens ∧ h.name.kind = .identifier := by
  obtain ⟨entered, e, t, ts, rest, hreach, hread⟩ := hreads
  obtain ⟨taken, htaken, hspells⟩ :=
    exists_taken_of_spells (Declaration.read_eq_ok_iff.mp hread)
  have hpattern : ⟨.identifier, some h.name⟩ ∈ (Declaration.definition h).patterns := by
    simp [Declaration.patterns, FunctionHeader.patterns, typedName]
  obtain ⟨u, hu, hfits⟩ := exists_fits_of_spells hspells hpattern
  obtain ⟨rfl, hkind⟩ := Pattern.fits_token_iff.mp hfits
  refine ⟨hreach.suffix.subset ?_, hkind⟩
  rw [htaken]
  exact List.mem_append_left rest hu

/-- A function that has its body was defined. -/
theorem Reaches.exists_definition (hreach : Reaches tokens entered e rest) {f : Function}
    (hf : f ∈ e.functions) (hbody : f.body.isSome) :
    ∃ h, Reads tokens (.definition h) ∧ h.name.lexeme = f.name := by
  induction hreach with
  | start => cases Array.not_mem_empty f hf
  | @entered entered e e' t d ts mid rest hreach hread henter ih =>
    obtain ⟨htakes, -⟩ := enter_eq_ok_iff.mp henter
    rw [← Array.mem_toList_iff, (functions_of_takes hreach.valid htakes).2] at hf
    rcases Function.mem_of_mem_foldl_place hf with hnew | hold
    · cases d with
      | definition h =>
        obtain rfl := List.mem_singleton.mp hnew
        exact ⟨h, ⟨entered, e, t, ts, mid, hreach, hread⟩, rfl⟩
      | prototype h =>
        obtain rfl := List.mem_singleton.mp hnew
        cases hbody
      | «variable» | assembly | close => cases hnew
    · exact ih (Array.mem_toList_iff.mp hold)
  | refused _ _ ih => exact ih hf

/-- At every moment of a parse declarations are added to a body. -/
theorem Reaches.isBody (hreach : Reaches tokens entered e rest) : e.tree.IsBody e.body := by
  rcases Nat.eq_zero_or_pos e.depth with hdepth | hdepth
  · rw [hreach.bracketed.unit hdepth]
    exact .unit
  · obtain ⟨_, _, _, _, _, _, _, -, -, -, -, -, hfunction⟩ := hreach.bracketed.innermost hdepth
    exact hfunction.isBody

/-- At every moment of a parse the tree has its shape. -/
theorem Reaches.wellShaped (hreach : Reaches tokens entered e rest) : e.tree.WellShaped := by
  obtain ⟨p, hp, hnodes, -⟩ := exists_lawful_of_enters hreach.enters
  exact Tree.wellShaped_of_program hnodes hp.types

/-- The names in the present body are those of functions that were defined, and generated ones
for places that are not free any more. -/
theorem Reaches.siblings_cases (hreach : Reaches tokens entered e rest)
    (htaken : taken ∈ e.context.siblings) :
    (∃ f ∈ e.functions, f.body.isSome ∧ f.name = taken) ∨
      ∃ k < e.childCount, taken = s!"Variable{k}" ∨ taken = s!"Assembly{k}" := by
  obtain ⟨id, hid, rfl⟩ := List.mem_map.mp htaken
  obtain ⟨k, hk⟩ := List.mem_iff_getElem?.mp hid
  rw [Array.getElem?_toList] at hk
  have hcases := hreach.wellShaped.name_cases hreach.isBody hk
  rcases hcases with ⟨arguments, inner, hfunction⟩ | hname
  · obtain ⟨i, f, hf, hbody, hname, -⟩ := hreach.agrees.listed _ _ _ hfunction
    exact .inl ⟨f, Array.mem_of_getElem? hf, by simp [hbody], hname⟩
  · exact .inr ⟨k, (Array.getElem?_eq_some_iff.mp hk).1, hname⟩

/-- A generated name for a place that is still free is taken only by a function. -/
theorem Reaches.exists_definition_of_generated (hreach : Reaches tokens entered e rest)
    (hname : taken = s!"Variable{e.childCount}" ∨ taken = s!"Assembly{e.childCount}")
    (htaken : taken ∈ e.context.siblings) :
    ∃ h, Reads tokens (.definition h) ∧ IsGenerated h.name.lexeme := by
  rcases hreach.siblings_cases htaken with ⟨f, hf, hbody, hfname⟩ | ⟨k, hk, hother⟩
  · obtain ⟨h, hreads, hheader⟩ := hreach.exists_definition hf hbody
    exact ⟨h, hreads, _, (hheader.trans hfname) ▸ hname⟩
  · -- the numbers would be the same
    exfalso
    rcases hname with rfl | rfl <;> rcases hother with heq | heq
    · exact Nat.ne_of_gt hk (numbered_injective heq)
    · exact Program.variable_ne_assembly _ _ heq
    · exact Program.variable_ne_assembly _ _ heq.symm
    · exact Nat.ne_of_gt hk (numbered_injective heq)

/-- A function that no rule refuses has no node yet, so that its name is taken only if it is
a generated one. -/
theorem Reaches.isGenerated_of_admissible (hreach : Reaches tokens entered e rest)
    {place : Option Nat} (hadmissible : e.admissible h true = .ok place)
    (htaken : h.name.lexeme ∈ e.context.siblings) : IsGenerated h.name.lexeme := by
  rcases hreach.siblings_cases htaken with ⟨f, hf, hbody, hname⟩ | ⟨k, -, hname⟩
  · obtain ⟨-, -, hallowed⟩ := admissible_eq_ok_iff.mp hadmissible
    obtain ⟨i, hi⟩ := Array.mem_iff_getElem?.mp hf
    obtain ⟨g, hg⟩ : ∃ g, e.functions.find? (·.name = h.name.lexeme) = some g := by
      rw [← Option.isSome_iff_exists, Array.find?_isSome]
      exact ⟨f, hf, by simpa using hname⟩
    obtain ⟨j, hj⟩ := Array.mem_iff_getElem?.mp (Array.mem_of_find?_eq_some hg)
    -- the function found by the name is the one that has a body, which it may not have
    have hsame : f.name = g.name := hname.trans (name_of_find? hg).symm
    obtain rfl := index_eq_of_name_eq hreach.agrees.names hi hj hsame
    obtain rfl := Option.some.inj (hi.symm.trans hj)
    rw [(hallowed f hg).1] at hbody
    cases hbody
  · exact ⟨k, hname⟩

/-- Where a declaration is refused for the name of a node, some function was given a generated
name. -/
theorem Reaches.exists_definition_of_refused (hreach : Reaches tokens entered e (t :: ts))
    (hrefused : e.declare (lastPosition tokens) t ts =
      (.error (duplicateNode position taken), rest)) :
    ∃ h, Reads tokens (.definition h) ∧ IsGenerated h.name.lexeme := by
  have hasks := Declaration.asksNoNode_read (lastPosition tokens) t ts position taken
  rw [declare] at hrefused
  rcases hread : Declaration.read (lastPosition tokens) t ts with ⟨fault | d, mid⟩
  · rw [hread] at hrefused hasks
    cases hrefused
    exact absurd rfl hasks
  rw [hread] at hrefused
  have hreads : Reads tokens d := ⟨entered, e, t, ts, mid, hreach, hread⟩
  cases d with
  | «variable» type name initializer =>
    have hfault := congrArg Prod.fst hrefused
    exact hreach.exists_definition_of_generated (.inl rfl)
      (mem_siblings_of_declareVariable hreach.valid hfault)
  | assembly sources =>
    have hfault := congrArg Prod.fst hrefused
    exact hreach.exists_definition_of_generated (.inr rfl)
      (mem_siblings_of_addAssembly hreach.valid hfault)
  | prototype header =>
    simp only [enter] at hrefused
    split at hrefused
    · rename_i hadmissible
      cases hrefused
      exact absurd rfl (ne_duplicateNode_of_admissible hadmissible position taken)
    · cases hrefused
  | definition header =>
    rcases enter_definition_error hreach.valid hrefused with
      ⟨⟨place, hadmissible⟩, hmem, -, -⟩ | ⟨hadmissible, -, -⟩
    · exact ⟨header, hreads, hreach.isGenerated_of_admissible hadmissible hmem⟩
    · exact absurd rfl (ne_duplicateNode_of_admissible hadmissible position taken)
  | close brace =>
    simp only [enter, closeBody] at hrefused
    split at hrefused <;> cases hrefused

/-- A refused node comes from a definition that was read and whose name could have been made by
counting. -/
theorem exists_definition_of_declarations (faults : Array Diagnostic)
    (hreach : Reaches tokens entered e rest) (hnew : duplicateNode position taken ∉ faults)
    (hfault : duplicateNode position taken ∈
      (declarations (lastPosition tokens) e faults rest).2) :
    ∃ h, Reads tokens (.definition h) ∧ IsGenerated h.name.lexeme := by
  fun_induction declarations (lastPosition tokens) e faults rest generalizing entered with
  | case1 e faults => exact absurd hfault hnew
  | case2 e faults t ts e' rest hentered ih =>
    obtain ⟨d, mid, hread, henter⟩ := exists_read_of_declare hentered
    exact ih (hreach.entered hread henter) hnew hfault
  | case3 e faults t ts fault rest hrefused ih =>
    by_cases heq : fault = duplicateNode position taken
    · subst heq
      exact hreach.exists_definition_of_refused hrefused
    · refine ih (hreach.refused hrefused) (fun hmem => ?_) hfault
      rcases Array.mem_push.mp hmem with hmem | hlast
      · exact hnew hmem
      · exact heq hlast.symm

/-- Generated names never collide among themselves: if no function is defined by a generated
name, then nothing is refused because the name of a node is taken. -/
theorem duplicateNode_not_mem_diagnostics {tokens : List Token}
    (hnames : ∀ h, Reads tokens (.definition h) → ¬ IsGenerated h.name.lexeme)
    (position : Position) (taken : String) :
    duplicateNode position taken ∉ (ofTokens tokens).diagnostics := by
  intro hmem
  have hfaults : (ofTokens tokens).diagnostics =
      (declarations (lastPosition tokens) .empty #[] tokens).2.toList ++
        unclosed (lastPosition tokens) (declarations (lastPosition tokens) .empty #[] tokens).1 :=
    rfl
  rw [hfaults, List.mem_append, Array.mem_toList_iff] at hmem
  rcases hmem with hmem | hmem
  · obtain ⟨h, hreads, hgenerated⟩ :=
      exists_definition_of_declarations #[] .start (Array.not_mem_empty _) hmem
    exact hnames h hreads hgenerated
  · unfold unclosed at hmem
    split at hmem
    · cases hmem
    · cases List.mem_singleton.mp hmem

/-- Variables and a block of assembly in two bodies, and a function that is refused for the
name of another function. -/
theorem duplicateNode_not_mem_of_two_bodies :
    let word (kind : TokenKind) (lexeme : String) : Token := ⟨kind, lexeme, none, default⟩
    let a := [word (.keyword .int) "int", word .identifier "a", word (.symbol .semi) ";"]
    let brace := word (.symbol .rightBrace) "\x7d"
    let f := [word (.keyword .void) "void", word .identifier "f", word (.symbol .leftParen) "(",
      word (.symbol .rightParen) ")", word (.symbol .leftBrace) "\x7b"]
    let nop := [word (.keyword .asm) "__asm__", word (.symbol .leftBrace) "\x7b",
      word .string "nop", brace]
    let tokens := a ++ f ++ a ++ nop ++ [brace] ++ nop ++ f ++ [brace] ++ a
    (∀ h, Reads tokens (.definition h) → ¬ IsGenerated h.name.lexeme) ∧
      ∀ position taken, duplicateNode position taken ∉ (ofTokens tokens).diagnostics := by
  intro word a brace f nop tokens
  have hshort : ∀ t ∈ tokens, t.lexeme.length < 8 := by decide +kernel
  have hnames (h : FunctionHeader) (hreads : Reads tokens (.definition h)) :
      ¬ IsGenerated h.name.lexeme := fun hgenerated =>
    Nat.not_le_of_lt (hshort h.name hreads.name_identifier.1) (length_of_isGenerated hgenerated)
  exact ⟨hnames, duplicateNode_not_mem_diagnostics hnames⟩

end Parse

end SmallC
