import SmallC.Proofs.Parse.Skipping

/-!
# Where faults are reported

A declaration takes tokens from the front, and its fault is reported at one of them. Where
the tokens end too early, that is the last token of all. The one exception is a block of
assembly without strings: if the name of its node is taken, the fault is at no place at all.
-/

namespace SmallC

variable {α β : Type} {last : Position} {ts rest taken : List Token} {fault : Diagnostic}

namespace Diagnostic

/-- The fault is that a body is not closed. -/
def isUnclosedBody : Diagnostic → Bool
  | .declaration _ (.unclosedBody _) => true
  | _ => false

/-- A declaration is at fault at a position; that a body is not closed is the fault of no
declaration. -/
structure IsAt (fault : Diagnostic) (position : Position) : Prop where
  position_eq : position = fault.position
  isUnclosedBody : fault.isUnclosedBody = false

end Diagnostic

/-! ## Reading -/

namespace Declaration

/-- Reading takes tokens from the front. If it fails, the fault is at one of them, or at the
last token of all, and then none are left. -/
def FaultsWithin (last : Position) (ts : List Token) (r : Reading α) : Prop :=
  ∃ taken, ts = taken ++ r.2 ∧ ∀ fault, r.1 = .error fault →
    (∃ t ∈ taken, fault.IsAt t.position) ∨ r.2 = [] ∧ fault.IsAt last

/-- A reading that succeeds has no fault to be placed. -/
theorem faultsWithin_ok (taken rest : List Token) (a : α) :
    FaultsWithin last (taken ++ rest) (.ok a, rest) :=
  ⟨taken, rfl, fun _ h => nomatch h⟩

/-- A token that is at fault is the last one to be taken. -/
theorem faultsWithin_fault (t : Token) (rest : List Token) {kind : DeclarationFault}
    (hkind : (Diagnostic.declaration t.position kind).isUnclosedBody = false) :
    FaultsWithin (α := α) last (t :: rest) (.error (.declaration t.position kind), rest) := by
  refine ⟨[t], rfl, ?_⟩
  rintro _ ⟨⟩
  exact .inl ⟨t, List.mem_cons_self, rfl, hkind⟩

/-- Where tokens end too early, the fault is at the last one. -/
theorem faultsWithin_ended (ts : List Token) (expected : String) :
    FaultsWithin (α := α) last ts (.error (ended last expected), []) := by
  refine ⟨ts, by simp, ?_⟩
  rintro _ ⟨⟩
  exact .inr ⟨rfl, rfl, rfl⟩

/-- More tokens that were taken before. -/
theorem FaultsWithin.prepend {r : Reading α} (h : FaultsWithin last ts r) (before : List Token) :
    FaultsWithin last (before ++ ts) r := by
  obtain ⟨taken, rfl, hfault⟩ := h
  refine ⟨before ++ taken, (List.append_assoc before taken r.2).symm, fun fault h => ?_⟩
  rcases hfault fault h with ⟨t, ht, hat⟩ | hlast
  · exact .inl ⟨t, List.mem_append_right before ht, hat⟩
  · exact .inr hlast

/-- A fault stays where it is when reading is given up. -/
theorem FaultsWithin.failed (h : FaultsWithin (α := α) last ts (.error fault, rest)) :
    FaultsWithin (α := β) last ts (.error fault, rest) := by
  obtain ⟨taken, hts, hfault⟩ := h
  refine ⟨taken, hts, ?_⟩
  rintro _ ⟨⟩
  exact hfault fault rfl

/-- Two readings one after the other fail within their tokens if each of them does. -/
theorem faultsWithin_andThen {r : Reading α} {f : α → List Token → Reading β}
    (hr : FaultsWithin last ts r) (hf : ∀ a us, FaultsWithin last us (f a us)) :
    FaultsWithin last ts (andThen r f) := by
  rcases r with ⟨fault | a, rest⟩
  · exact hr.failed
  · obtain ⟨taken, rfl, -⟩ := hr
    exact (hf a rest).prepend taken

/-- What is done with a token may find fault with it. -/
theorem faultsWithin_next {expected : String} {f : Token → List Token → Reading β}
    (hf : ∀ t us, FaultsWithin last (t :: us) (f t us)) (ts : List Token) :
    FaultsWithin last ts (andThen (next last expected ts) f) := by
  cases ts with
  | nil => exact faultsWithin_ended [] expected
  | cons t us => exact hf t us

/-- A token of the wrong kind is the place of its fault. -/
theorem faultsWithin_expect (kind : TokenKind) (expected : String) (ts : List Token) :
    FaultsWithin last ts (expect last kind expected ts) := by
  cases ts with
  | nil => exact faultsWithin_ended [] expected
  | cons t ts =>
    rw [expect]
    split
    · exact faultsWithin_ok [t] ts t
    · exact faultsWithin_fault t ts rfl

/-- A sign that is found is the first token. -/
theorem eq_cons_of_startsWith {sign : Symbol} (h : startsWith sign ts = true) :
    ∃ t, ts = t :: ts.tail := by
  cases ts with
  | nil => cases h
  | cons t ts => exact ⟨t, rfl⟩

/-- A type fails within its tokens. -/
theorem faultsWithin_typeSpec (ts : List Token) : FaultsWithin last ts (typeSpec last ts) := by
  cases ts with
  | nil => exact faultsWithin_ended [] _
  | cons t ts =>
    simp only [typeSpec]
    split
    · exact faultsWithin_fault t ts rfl
    · split
      · rename_i hstar
        obtain ⟨star, hts⟩ := eq_cons_of_startsWith hstar
        rw [hts]
        exact faultsWithin_ok [t, star] ts.tail _
      · exact faultsWithin_ok [t] ts _

/-- A parameter fails within its tokens. -/
theorem faultsWithin_parameter (ts : List Token) : FaultsWithin last ts (parameter last ts) :=
  faultsWithin_andThen (faultsWithin_typeSpec ts) fun _ us =>
    faultsWithin_andThen (faultsWithin_expect _ _ us) fun _ vs => faultsWithin_ok [] vs _

/-- Parameters fail within their tokens. -/
theorem faultsWithin_parameters (done : List Parameter) (ts : List Token) :
    FaultsWithin last ts (parameters last done ts) := by
  have htaken {ts rest : List Token} {r : Except Diagnostic Parameter}
      (h : parameter last ts = (r, rest)) : FaultsWithin last ts (r, rest) :=
    h ▸ faultsWithin_parameter ts
  fun_induction parameters last done ts with
  | case1 done ts fault rest h => exact (htaken h).failed
  | case2 => exact faultsWithin_ended _ _
  | case3 done ts p t rest' h hparen hparameter =>
    obtain ⟨taken, rfl, -⟩ := htaken hparameter
    exact (faultsWithin_ok [t] rest' _).prepend taken
  | case4 done ts p t rest' h hparen hcomma hparameter ih =>
    obtain ⟨taken, rfl, -⟩ := htaken hparameter
    exact (ih.prepend [t]).prepend taken
  | case5 done ts p t rest' h hparen hcomma hparameter =>
    obtain ⟨taken, rfl, -⟩ := htaken hparameter
    exact (faultsWithin_fault t rest' rfl).prepend taken

/-- A list of parameters in parentheses fails within its tokens. -/
theorem faultsWithin_parameterList (ts : List Token) :
    FaultsWithin last ts (parameterList last ts) := by
  rw [parameterList]
  split
  · rename_i hparen
    obtain ⟨paren, hts⟩ := eq_cons_of_startsWith hparen
    rw [hts]
    exact faultsWithin_ok [paren] ts.tail _
  · exact faultsWithin_parameters [] ts

/-- A function fails within its tokens. -/
theorem faultsWithin_readFunction (type : TypeSpec) (name : Token) (ts : List Token) :
    FaultsWithin last ts (readFunction last type name ts) := by
  refine faultsWithin_andThen (faultsWithin_parameterList ts) fun ps us => ?_
  refine faultsWithin_next (fun t vs => ?_) us
  split
  · exact faultsWithin_ok [t] vs _
  split
  · exact faultsWithin_ok [t] vs _
  · exact faultsWithin_fault t vs rfl

/-- A variable fails within its tokens, with or without an initializer. -/
theorem faultsWithin_readVariable (type : TypeSpec) (name : Token) (ts : List Token) :
    FaultsWithin last ts (readVariable last type name ts) := by
  refine faultsWithin_next (fun t us => ?_) ts
  split
  · refine FaultsWithin.prepend ?_ [t]
    refine faultsWithin_next (fun value vs => FaultsWithin.prepend ?_ [value]) us
    exact faultsWithin_andThen (faultsWithin_expect _ _ vs) fun _ ws => faultsWithin_ok [] ws _
  split
  · exact faultsWithin_ok [t] us _
  · exact faultsWithin_fault t us rfl

/-- A declaration that starts with a type fails within its tokens. -/
theorem faultsWithin_readTyped (ts : List Token) : FaultsWithin last ts (readTyped last ts) := by
  refine faultsWithin_andThen (faultsWithin_typeSpec ts) fun type us => ?_
  refine faultsWithin_andThen (faultsWithin_expect _ _ us) fun name vs => ?_
  split
  · rename_i hparen
    obtain ⟨paren, hvs⟩ := eq_cons_of_startsWith hparen
    rw [hvs]
    exact (faultsWithin_readFunction type name vs.tail).prepend [paren]
  · exact faultsWithin_readVariable type name vs

/-- The strings of a block of assembly fail within their tokens. -/
theorem faultsWithin_sources (done ts : List Token) :
    FaultsWithin last ts (sources last done ts) := by
  induction ts generalizing done with
  | nil => exact faultsWithin_ended [] _
  | cons t ts ih =>
    rw [sources]
    split
    · exact faultsWithin_ok [t] ts _
    split
    · exact (ih (t :: done)).prepend [t]
    · exact faultsWithin_fault t ts rfl

/-- A block of assembly fails within its tokens. -/
theorem faultsWithin_readAssembly (ts : List Token) :
    FaultsWithin last ts (readAssembly last ts) :=
  faultsWithin_andThen (faultsWithin_expect _ _ ts) fun _ us =>
    faultsWithin_andThen (faultsWithin_sources [] us) fun _ vs => faultsWithin_ok [] vs _

/-- Every declaration fails within its tokens, its first one among them. -/
theorem faultsWithin_read (last : Position) (t : Token) (ts : List Token) :
    FaultsWithin last (t :: ts) (read last t ts) := by
  rw [read]
  split
  · exact faultsWithin_readTyped (t :: ts)
  split
  · exact (faultsWithin_readAssembly ts).prepend [t]
  split
  · exact faultsWithin_ok [t] ts _
  · exact faultsWithin_fault t ts rfl

/-! ## The tokens of a declaration -/

/-- The tokens that a declaration holds. -/
def tokens (d : Declaration) : List Token := d.patterns.filterMap (·.token)

end Declaration

/-- A spelling stands at the front of the tokens. -/
theorem exists_taken_of_spells {ps : List Pattern} (h : Spells ps ts rest) :
    ∃ taken, ts = taken ++ rest ∧ Spells ps taken [] := by
  induction ps generalizing ts with
  | nil => exact ⟨[], h, rfl⟩
  | cons p ps ih =>
    obtain ⟨t, ts', rfl, ht, hps⟩ := spells_cons_iff.mp h
    obtain ⟨taken, rfl, htaken⟩ := ih hps
    exact ⟨t :: taken, rfl, ht, htaken⟩

/-- What comes behind a spelling makes no difference to it. -/
theorem Spells.append {ps : List Pattern} (h : Spells ps ts rest) (after : List Token) :
    Spells ps (ts ++ after) (rest ++ after) := by
  induction ps generalizing ts with
  | nil => exact congrArg (· ++ after) h
  | cons p ps ih =>
    obtain ⟨t, ts', rfl, ht, hps⟩ := spells_cons_iff.mp h
    exact ⟨ht, ih hps⟩

/-- The particular tokens of a spelling are among those that spell it. -/
theorem mem_of_spells {ps : List Pattern} {u : Token} (h : Spells ps ts rest)
    (hu : u ∈ ps.filterMap (·.token)) : u ∈ ts := by
  induction ps generalizing ts with
  | nil => cases hu
  | cons p ps ih =>
    obtain ⟨t, ts', rfl, ht, hps⟩ := spells_cons_iff.mp h
    obtain ⟨q, hq, htoken⟩ := List.mem_filterMap.mp hu
    rcases List.mem_cons.mp hq with rfl | hq
    · rw [← ht.2 u htoken]
      exact List.mem_cons_self
    · exact List.mem_cons_of_mem t (ih hps (List.mem_filterMap.mpr ⟨q, hq, htoken⟩))

/-- A name behind its type is one of the tokens. -/
theorem name_mem_typedName (type : TypeSpec) (name : Token) :
    name ∈ (typedName type name).filterMap (·.token) := by
  simp [typedName, TypeSpec.patterns]

/-- The name of a variable is one of the tokens of its declaration. -/
theorem Declaration.name_mem_tokens (type : TypeSpec) (name : Token) (initializer : Option Token) :
    name ∈ (Declaration.variable type name initializer).tokens := by
  cases initializer with
  | none | some =>
    rw [tokens, patterns, List.filterMap_append]
    exact List.mem_append_left _ (name_mem_typedName type name)

/-- The name of a parameter is one of the tokens of the list. -/
theorem name_mem_parameterPatterns {p : Parameter} {ps : List Parameter} (hp : p ∈ ps) :
    p.name ∈ (parameterPatterns ps).filterMap (·.token) := by
  induction ps with
  | nil => cases hp
  | cons q ps ih =>
    cases ps with
    | nil =>
      obtain rfl := List.mem_singleton.mp hp
      exact name_mem_typedName p.type p.name
    | cons r ps =>
      rw [parameterPatterns, List.filterMap_append]
      · rcases List.mem_cons.mp hp with rfl | hp
        · exact List.mem_append_left _ (name_mem_typedName p.type p.name)
        · exact List.mem_append_right _ (ih hp)
      · simp

namespace FunctionHeader

/-- The name of a function is one of the tokens of its header. -/
theorem name_mem_patterns (h : FunctionHeader) : h.name ∈ h.patterns.filterMap (·.token) := by
  rw [patterns, List.filterMap_append, List.filterMap_append]
  exact List.mem_append_left _ (List.mem_append_left _ (name_mem_typedName h.type h.name))

/-- The names of the parameters are among the tokens of the header. -/
theorem parameter_mem_patterns (h : FunctionHeader) {p : Parameter} (hp : p ∈ h.parameters) :
    p.name ∈ h.patterns.filterMap (·.token) := by
  rw [patterns, List.filterMap_append, List.filterMap_append]
  exact List.mem_append_left _ (List.mem_append_right _ (name_mem_parameterPatterns hp))

end FunctionHeader

/-! ## Entering -/

namespace Environment

variable {e : Environment} {type : TypeSpec} {name : Token} {initializer : Option Token}
  {h : FunctionHeader}

/-- A constant that cannot be given is refused at its token. -/
theorem isAt_of_initialValue {variableName : String}
    (hfault : initialValue type variableName initializer = .error fault) :
    ∃ t ∈ initializer, fault.IsAt t.position := by
  cases initializer with
  | none => cases hfault
  | some t =>
    refine ⟨t, rfl, ?_⟩
    simp only [initialValue] at hfault
    split at hfault
    · cases hfault
      exact ⟨rfl, rfl⟩
    split at hfault
    · cases hfault
      exact ⟨rfl, rfl⟩
    split at hfault
    · cases hfault
      exact ⟨rfl, rfl⟩
    split at hfault
    · cases hfault
      exact ⟨rfl, rfl⟩
    · cases hfault

/-- A variable that may not be declared is refused at its name or at its initializer. -/
theorem isAt_of_declareVariable
    (hfault : e.declareVariable type name initializer = .error fault) :
    fault.IsAt name.position ∨ ∃ t ∈ initializer, fault.IsAt t.position := by
  simp only [declareVariable] at hfault
  split at hfault
  · cases hfault
    exact .inl ⟨rfl, rfl⟩
  split at hfault
  · cases hfault
    exact .inl ⟨rfl, rfl⟩
  split at hfault
  · rename_i hvalue
    cases hfault
    exact .inr (isAt_of_initialValue hvalue)
  split at hfault
  · cases hfault
    exact .inl ⟨rfl, rfl⟩
  · cases hfault

/-- The fault of a block of assembly is at its first string, if it has one. -/
theorem eq_duplicateNode_of_addAssembly {sources : List Token}
    (hfault : e.addAssembly sources = .error fault) :
    fault = duplicateNode ((sources.head?.map (·.position)).getD default)
      s!"Assembly{e.childCount}" := by
  simp only [addAssembly] at hfault
  split at hfault
  · cases hfault
    rfl
  split at hfault
  · cases hfault
    rfl
  · cases hfault

/-- A parameter that may not be declared is refused at its name. -/
theorem isAt_of_parameterFault {before : List String} {ps : List Parameter}
    (hfault : e.parameterFault? before ps = some fault) :
    ∃ p ∈ ps, fault.IsAt p.name.position := by
  induction ps generalizing before with
  | nil => cases hfault
  | cons p ps ih =>
    simp only [parameterFault?] at hfault
    split at hfault
    · cases hfault
      exact ⟨p, List.mem_cons_self, rfl, rfl⟩
    · obtain ⟨q, hq, hat⟩ := ih hfault
      exact ⟨q, List.mem_cons_of_mem p hq, hat⟩

/-- A function that may not be declared is refused at its name or at that of a parameter. -/
theorem isAt_of_admissible {hasBody : Bool} (hfault : e.admissible h hasBody = .error fault) :
    ∃ u ∈ h.patterns.filterMap (·.token), fault.IsAt u.position := by
  simp only [admissible] at hfault
  split at hfault
  · rename_i hparameter
    cases hfault
    obtain ⟨p, hp, hat⟩ := isAt_of_parameterFault hparameter
    exact ⟨p.name, h.parameter_mem_patterns hp, hat⟩
  split at hfault
  · cases hfault
  split at hfault
  · cases hfault
    exact ⟨h.name, h.name_mem_patterns, rfl, rfl⟩
  split at hfault
  · cases hfault
    exact ⟨h.name, h.name_mem_patterns, rfl, rfl⟩
  · cases hfault

/-- A function whose nodes cannot be added is refused at its name. -/
theorem isAt_of_openFunction {place : Option Nat}
    (hfault : e.openFunction h place = .error fault) : fault.IsAt h.name.position := by
  simp only [openFunction] at hfault
  split at hfault
  · cases hfault
    exact ⟨rfl, rfl⟩
  · cases hfault

/-- A brace that closes nothing is the place of its fault. -/
theorem isAt_of_closeBody {brace : Token} (hfault : e.closeBody brace = .error fault) :
    fault.IsAt brace.position := by
  simp only [closeBody] at hfault
  split at hfault
  · cases hfault
    exact ⟨rfl, rfl⟩
  · cases hfault

/-- A declaration that is refused is at fault in one of its tokens, unless it is a block of
assembly without strings, which is at fault at no place. -/
theorem isAt_of_enter {d : Declaration} (hfault : (e.enter d ts).1 = .error fault) :
    (∃ u ∈ d.tokens, fault.IsAt u.position) ∨
      d = .assembly [] ∧ fault.IsAt default := by
  cases d with
  | «variable» type name initializer =>
    left
    rcases isAt_of_declareVariable hfault with hname | ⟨t, ht, hvalue⟩
    · exact ⟨name, Declaration.name_mem_tokens type name initializer, hname⟩
    · refine ⟨t, ?_, hvalue⟩
      obtain rfl := ht
      simp [Declaration.tokens, Declaration.patterns]
  | assembly sources =>
    obtain rfl := eq_duplicateNode_of_addAssembly hfault
    cases sources with
    | nil => exact .inr ⟨rfl, rfl, rfl⟩
    | cons t sources =>
      exact .inl ⟨t, by simp [Declaration.tokens, Declaration.patterns, Pattern.keyword,
        Pattern.symbol], rfl, rfl⟩
  | close brace =>
    exact .inl ⟨brace, by simp [Declaration.tokens, Declaration.patterns],
      isAt_of_closeBody hfault⟩
  | prototype h =>
    left
    simp only [enter] at hfault
    split at hfault
    · rename_i hadmissible
      cases hfault
      obtain ⟨u, hu, hat⟩ := isAt_of_admissible hadmissible
      exact ⟨u, by simp [Declaration.tokens, Declaration.patterns, hu], hat⟩
    · cases hfault
  | definition h =>
    left
    simp only [enter] at hfault
    split at hfault
    · rename_i hadmissible
      cases hfault
      obtain ⟨u, hu, hat⟩ := isAt_of_admissible hadmissible
      exact ⟨u, by simp [Declaration.tokens, Declaration.patterns, hu], hat⟩
    · refine ⟨h.name, ?_, isAt_of_openFunction hfault⟩
      simp [Declaration.tokens, Declaration.patterns, h.name_mem_patterns]

end Environment

end SmallC
