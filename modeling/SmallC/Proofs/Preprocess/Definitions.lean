import SmallC.Preprocessor
import SmallC.Proofs.Directive.Tokens
import SmallC.Proofs.Preprocess.Following

/-!
# Recording definitions

A `#define` line records what it is written for: the macro with its name, its parameters in order
and its body, whatever quotes, parentheses or commas the body has. Only a parenthesis right
behind the name opens a list of parameters.
-/

namespace SmallC

namespace Directive

open DirectiveToken

variable {p : String} {rest : List Char}

/-! ## Lists of parameters -/

/-- The text is an identifier or an ellipsis. -/
def IsParameter (p : String) : Prop := Text.isIdentifier p.toList ∨ p = "..."

/-- The name under which a parameter is recorded. -/
def parameterName (p : String) : String := if p = "..." then "__VA_ARGS__" else p

/-- A parameter is read as its name, or as that of the variable arguments. -/
theorem parameters_of_isParameter (offset : Nat) (names : List String) (hp : IsParameter p)
    (hrest : ∀ d ∈ rest.head?, Text.continuesIdentifier d = false) :
    parameters true names (allFrom offset [] (p.toList ++ rest)) =
      parameters false (parameterName p :: names)
        (allFrom (offset + byteLength p.toList) [] rest) := by
  rcases hp with hp | rfl
  · have hne : p ≠ "..." := by
      rintro rfl
      cases hp
    rw [allFrom_of_spells offset (spells_identifier hp hrest), parameterName, if_neg hne,
      parameters]
    rfl
  · exact congrArg (parameters true names)
      (allFrom_of_spells offset (spells_punctuator .ellipsis rfl))

/-- Parameters as they are written behind the first one. -/
def further (ps : List String) : List Char := ps.flatMap fun p => ", ".toList ++ p.toList

/-- What comes behind a parameter does not go on with it. -/
theorem not_continuesIdentifier_of_head?_further (ps : List String) (rest : List Char) :
    ∀ d ∈ (further ps ++ ')' :: rest).head?, Text.continuesIdentifier d = false := by
  cases ps <;> (intro d hd; cases hd; rfl)

/-- Parameters with commas between them are the first one and the others, each with a comma in
front. -/
theorem toList_intercalate_cons (p : String) (ps : List String) :
    (", ".intercalate (p :: ps)).toList = p.toList ++ further ps := by
  induction ps generalizing p with
  | nil => simp [further]
  | cons q ps ih =>
    rw [String.intercalate_cons_cons, String.toList_append, ih, String.toList_append]
    simp [further]

/-- The parameters behind the first one are read up to the closing parenthesis. -/
theorem parameters_further {ps : List String} (hps : ∀ p ∈ ps, IsParameter p) (offset : Nat)
    (names : List String) (rest : List Char) :
    parameters false names (allFrom offset [] (further ps ++ ')' :: rest)) =
      .ok (names.reverse ++ ps.map parameterName, rest) := by
  -- each round reads a comma, which asks for a parameter, and the parameter behind the blank
  induction ps generalizing offset names with
  | nil =>
    have hclose : allFrom offset [] (')' :: rest) = _ :=
      allFrom_of_spells offset (spells_punctuator .rightParen rfl)
    rw [further, List.flatMap_nil, List.nil_append, hclose, List.map_nil, List.append_nil]
    rfl
  | cons p ps ih =>
    obtain ⟨hp, hps⟩ := List.forall_mem_cons.mp hps
    have hcomma (cs : List Char) : allFrom offset [] (',' :: cs) = _ :=
      allFrom_of_spells offset (spells_punctuator .comma rfl)
    have hwritten : further (p :: ps) ++ ')' :: rest =
        ',' :: ' ' :: (p.toList ++ (further ps ++ ')' :: rest)) := by simp [further]
    have hends := not_continuesIdentifier_of_head?_further ps rest
    rw [hwritten, hcomma, parameters, allFrom_blank rfl]
    refine (parameters_of_isParameter _ names hp hends).trans ?_
    rw [ih hps]
    simp

/-- The parameters of a list are read as they are written, and what comes behind the closing
parenthesis is left. -/
theorem parameters_written {ps : List String} (hps : ∀ p ∈ ps, IsParameter p) (offset : Nat)
    (rest : List Char) :
    parameters true [] (allFrom offset [] ((", ".intercalate ps).toList ++ ')' :: rest)) =
      .ok (ps.map parameterName, rest) := by
  cases ps with
  | nil =>
    have hclose : allFrom offset [] (')' :: rest) = _ :=
      allFrom_of_spells offset (spells_punctuator .rightParen rfl)
    rw [String.intercalate_nil]
    exact congrArg (parameters true []) hclose
  | cons p ps =>
    obtain ⟨hp, hps⟩ := List.forall_mem_cons.mp hps
    have hends := not_continuesIdentifier_of_head?_further ps rest
    rw [toList_intercalate_cons, List.append_assoc, parameters_of_isParameter offset [] hp hends,
      parameters_further hps]
    rfl

/-! ## Definitions -/

namespace Definition

/-- What can be written as a definition: the name is an identifier, the parameters are
identifiers and ellipses, and the body is without white space at its ends. -/
structure IsWritable (d : Definition) : Prop where
  name : Text.isIdentifier d.name.toList
  parameters : ∀ ps ∈ d.parameters, ∀ p ∈ ps, IsParameter p
  body : Text.IsTrimmed d.body.toList

/-- A definition as it is written behind `#define`. -/
def written (d : Definition) : String :=
  match d.parameters with
  | none => d.name ++ " " ++ d.body
  | some ps => d.name ++ "(" ++ ", ".intercalate ps ++ ") " ++ d.body

/-- The definition with its parameters under the names they are recorded with. -/
def recorded (d : Definition) : Definition :=
  { d with parameters := d.parameters.map (·.map parameterName) }

end Definition

/-- A written definition is read back. -/
theorem definition_written {d : Definition} (h : d.IsWritable) (offset : Nat) :
    definition (allFrom offset [] d.written.toList) = .ok d.recorded := by
  obtain ⟨name, ps, body⟩ := d
  obtain ⟨hname, hparameters, hbody⟩ := h
  have htrim : Text.trim (' ' :: body.toList) = body.toList := by
    rw [Text.trim_cons_of_isSpace rfl, Text.trim_of_isTrimmed hbody]
  cases ps with
  | none =>
    have hwritten : (Definition.mk name none body).written.toList =
        name.toList ++ ' ' :: body.toList := by simp [Definition.written]
    rw [hwritten, allFrom_of_spells offset (spells_identifier hname (by simp; rfl))]
    simp [definition, htrim, Definition.recorded]
  | some ps =>
    have hwritten : (Definition.mk name (some ps) body).written.toList =
        name.toList ++ '(' :: ((", ".intercalate ps).toList ++ ')' :: ' ' :: body.toList) := by
      simp [Definition.written]
    have hopen (offset : Nat) (cs : List Char) : allFrom offset [] ('(' :: cs) = _ :=
      allFrom_of_spells offset (spells_punctuator .leftParen rfl)
    rw [hwritten, allFrom_of_spells offset (spells_identifier hname (by simp; rfl)), hopen]
    simp only [definition, List.head?_cons, if_true, List.tail_cons,
      parameters_written (hparameters ps rfl), htrim, String.ofList_toList, Definition.recorded,
      Option.map_some]

end Directive

namespace Preprocess

open Directive

/-- The macro that a definition at a line records. -/
def macroOf (d : Definition) (line : Line) : Macro :=
  ⟨d.name, d.parameters.map (·.map parameterName), d.body, line.location, false⟩

/-- A definition that is written out is recorded, whatever was recorded before, and the line is
blanked. -/
theorem define_written {d : Definition} (h : d.IsWritable) (s : State) (line : Line)
    (offset : Nat) :
    ∃ log, define s line (DirectiveToken.allFrom offset [] d.written.toList) =
      ({ s with macros := s.macros.insert (macroOf d line), log }, .ok .blank) := by
  rw [define, definition_written h]
  exact ⟨_, rfl⟩

/-- A written definition without a comment is the argument of its line. -/
theorem exists_directive?_eq_define {line : Line} {d : Definition}
    (htext : line.text = "#define " ++ d.written)
    (hcomment : DirectiveToken.stripComment line.text.toList = line.text.toList) :
    ∃ offset, line.directive? =
      some (.define (DirectiveToken.allFrom offset [] d.written.toList)) := by
  have hline : line.text.toList = "#define ".toList ++ d.written.toList := by simp [htext]
  have hwritten : DirectiveToken.stripComment d.written.toList = d.written.toList := by
    rw [hline, DirectiveToken.stripComment_append_of_plain (by decide)] at hcomment
    exact List.append_cancel_left hcomment
  have hdirective := ofLine?_of_isIdentifier "define" (by decide) d.written.toList
  rw [hwritten] at hdirective
  rw [Line.directive?, hline]
  exact ⟨_, hdirective⟩

/-- An active `#define` line records exactly the macro that it is written for, and becomes
blank. -/
theorem takeLine_define_written (config : PreprocessConfig) (fs : FileSystem) (s : State)
    (line : Line) (d : Definition) (hlive : s.conditionals.live) (hd : d.IsWritable)
    (htext : line.text = "#define " ++ d.written)
    (hcomment : DirectiveToken.stripComment line.text.toList = line.text.toList) :
    (∃ log, takeLine config fs s line =
      ({ s with macros := s.macros.insert (macroOf d line), log }, .ok (line.blank, []))) ∧
    (s.macros.insert (macroOf d line)).get? d.name = some (macroOf d line) ∧
    ∀ name, name ≠ d.name → (s.macros.insert (macroOf d line)).get? name = s.macros.get? name := by
  refine ⟨?_, s.macros.get?_insert_self (macroOf d line),
    fun name hname => s.macros.get?_insert_of_ne (Ne.symm hname)⟩
  obtain ⟨offset, hline⟩ := exists_directive?_eq_define htext hcomment
  obtain ⟨files, macros, conditionals, log⟩ := s
  obtain ⟨log₁, hstep⟩ := exists_step_eq hline log
  obtain ⟨log₂, hdefine⟩ := define_written hd ⟨files, macros, conditionals, log₁⟩ line offset
  refine ⟨log₂, ?_⟩
  rw [takeLine, hstep, directive, if_pos hlive, hdefine]

/-- A body with a quote that is not closed, two slashes behind it, and an open parenthesis. -/
theorem takeLine_define_oddBody :
    let config : PreprocessConfig := ⟨[], [("A", none)], 64⟩
    let fs : FileSystem := ⟨fun _ => false, fun _ => .error .notFound⟩
    let s : State := .start config
    let line : Line := ⟨"#define F(a, ...) (a) ? \"//é, (", 0, 1, 0⟩
    let m : Macro :=
      ⟨"F", some ["a", "__VA_ARGS__"], "(a) ? \"//é, (", line.location, false⟩
    (∃ log, takeLine config fs s line =
      ({ s with macros := s.macros.insert m, log }, .ok (line.blank, []))) ∧
    (s.macros.insert m).get? "F" = some m ∧
    ∀ name, name ≠ "F" → (s.macros.insert m).get? name = s.macros.get? name := by
  intro config fs s line m
  let d : Definition := ⟨"F", some ["a", "..."], "(a) ? \"//é, ("⟩
  have hparameters : ∀ ps ∈ d.parameters, ∀ p ∈ ps, IsParameter p := by
    rintro ps ⟨⟩ p hp
    simp only [List.mem_cons, List.not_mem_nil, or_false] at hp
    rcases hp with rfl | rfl
    · exact .inl (by decide)
    · exact .inr rfl
  have hbody : Text.IsTrimmed d.body.toList := by
    have hhead : d.body.toList.head? = some '(' := by decide
    have hlast : d.body.toList.getLast? = some '(' := by decide
    rw [Text.IsTrimmed, hhead, hlast]
    exact ⟨fun c hc => Option.some.inj hc ▸ rfl, fun c hc => Option.some.inj hc ▸ rfl⟩
  exact takeLine_define_written config fs s line d rfl ⟨by decide, hparameters, hbody⟩ (by decide)
    (by decide +kernel)

end Preprocess

end SmallC
