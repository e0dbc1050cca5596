import SmallC.Proofs.Parse.Runs

/-!
# The bodies of refused functions

A function whose header breaks a rule is refused, and its body is skipped: the parser goes
on behind the brace that closes it. Only where the node of the function would have the name
of another one does the parser go on at the start of the body.
-/

namespace SmallC

variable {depth inner : Nat} {t : Token} {ts rest : List Token}

/-! ## Matching braces -/

/-- How often a symbol occurs. -/
def signCount (sign : Symbol) (ts : List Token) : Nat := ts.countP (·.kind = .symbol sign)

/-- No body is closed that is opened neither by the tokens nor among the `depth` bodies
before them. -/
def StaysOpen (depth : Nat) (ts : List Token) : Prop :=
  ∀ before, before <+: ts → signCount .rightBrace before ≤ depth + signCount .leftBrace before

/-- Where `depth + 1` bodies are open, the tokens start with what closes them all: `rest` is
what comes behind the last brace of that. If they are never all closed, nothing is left. -/
def ClosesBefore (depth : Nat) (ts rest : List Token) : Prop :=
  (∃ body brace, ts = body ++ brace :: rest ∧ brace.kind = .symbol .rightBrace ∧
    StaysOpen depth body ∧
    signCount .rightBrace body = depth + signCount .leftBrace body) ∨
  rest = [] ∧ StaysOpen depth ts

/-- How often a symbol occurs adds up token by token. -/
theorem signCount_cons (sign : Symbol) (t : Token) (ts : List Token) :
    signCount sign (t :: ts) = signCount sign [t] + signCount sign ts := by
  simp only [signCount, List.countP_cons, List.countP_nil]
  omega

/-- Nothing closes no body. -/
theorem staysOpen_nil : StaysOpen depth [] := by
  intro before hbefore
  obtain rfl := List.prefix_nil.mp hbefore
  exact Nat.zero_le _

/-- One token before others, which opens or closes at most one body. -/
theorem StaysOpen.cons (h : StaysOpen inner ts)
    (hdepth : signCount .rightBrace [t] + inner = depth + signCount .leftBrace [t]) :
    StaysOpen depth (t :: ts) := by
  intro before hbefore
  rcases List.prefix_cons_iff.mp hbefore with rfl | ⟨later, rfl, hlater⟩
  · exact Nat.zero_le _
  · have hcount := h later hlater
    rw [signCount_cons .rightBrace, signCount_cons .leftBrace]
    omega

/-- What closes the bodies behind a token closes them with the token in front, if the depths
agree. -/
theorem ClosesBefore.cons (h : ClosesBefore inner ts rest)
    (hdepth : signCount .rightBrace [t] + inner = depth + signCount .leftBrace [t]) :
    ClosesBefore depth (t :: ts) rest := by
  rcases h with ⟨body, brace, rfl, hbrace, hopen, hcount⟩ | ⟨hrest, hopen⟩
  · refine .inl ⟨t :: body, brace, rfl, hbrace, hopen.cons hdepth, ?_⟩
    rw [signCount_cons .rightBrace, signCount_cons .leftBrace]
    omega
  · exact .inr ⟨hrest, hopen.cons hdepth⟩

/-- Skipping goes on behind the brace that closes the bodies which are skipped. -/
theorem closesBefore_skipBody (depth : Nat) (ts : List Token) :
    ClosesBefore depth ts (skipBody depth ts) := by
  induction ts generalizing depth with
  | nil => exact .inr ⟨rfl, staysOpen_nil⟩
  | cons t ts ih =>
    unfold skipBody
    by_cases hleft : t.kind = .symbol .leftBrace
    · rw [if_pos hleft]
      exact (ih (depth + 1)).cons (by simp [signCount, hleft])
    rw [if_neg hleft]
    by_cases hright : t.kind = .symbol .rightBrace
    · rw [if_pos hright]
      cases depth with
      | zero => exact .inl ⟨[], t, rfl, hright, staysOpen_nil, rfl⟩
      | succ depth => exact (ih depth).cons (by simp [signCount, hright, Nat.add_comm])
    · rw [if_neg hright]
      exact (ih depth).cons (by simp [signCount, hleft, hright])

/-- At least the brace itself is skipped. -/
theorem not_closesBefore_self (hts : ts ≠ []) : ¬ ClosesBefore depth ts ts := by
  rintro (⟨body, brace, heq, -⟩ | ⟨hnil, -⟩)
  · have hlength := congrArg List.length heq
    rw [List.length_append, List.length_cons] at hlength
    omega
  · exact hts hnil

/-! ## Refused functions -/

namespace Environment

variable {e e' : Environment} {last : Position} {h : FunctionHeader} {fault : Diagnostic}

/-- A parameter that may not be declared is no refused node. -/
theorem ne_duplicateNode_of_parameterFault {before : List String} {ps : List Parameter}
    (hfault : e.parameterFault? before ps = some fault) (position : Position) (name : String) :
    fault ≠ duplicateNode position name := by
  induction ps generalizing before with
  | nil => cases hfault
  | cons p ps ih =>
    simp only [parameterFault?] at hfault
    split at hfault
    · cases hfault
      simp [duplicateNode]
    · exact ih hfault

/-- What the rules refuse is not refused for the name of a node. -/
theorem ne_duplicateNode_of_admissible {hasBody : Bool}
    (hfault : e.admissible h hasBody = .error fault) (position : Position) (name : String) :
    fault ≠ duplicateNode position name := by
  simp only [admissible] at hfault
  split at hfault
  · rename_i hparameter
    cases hfault
    exact ne_duplicateNode_of_parameterFault hparameter position name
  · split at hfault
    · cases hfault
    · split at hfault
      · cases hfault
        simp [duplicateNode]
      · split at hfault
        · cases hfault
          simp [duplicateNode]
        · cases hfault

/-- A function whose body cannot be opened has the name of a node of the present body. -/
theorem eq_duplicateNode_of_openFunction {place : Option Nat} (he : e.Valid)
    (hfault : e.openFunction h place = .error fault) :
    fault = duplicateNode h.name.position h.name.lexeme ∧
      h.name.lexeme ∈ childNames e.tree.nodes e.body := by
  have hmem : h.name.lexeme ∈ childNames e.tree.nodes e.body := by
    by_cases hname : h.name.lexeme ∈ childNames e.tree.nodes e.body
    · exact hname
    · obtain ⟨tree, hnodes, -⟩ := exists_functionNodes he.body_lt he.bounded hname
      simp only [openFunction, hnodes] at hfault
      cases hfault
  simp only [openFunction] at hfault
  split at hfault
  · cases hfault
    exact ⟨rfl, hmem⟩
  · cases hfault

/-- Why a function with a body is refused, and where the parser goes on: behind the body if
a rule is broken, and at its start if it is only the name of its node that is taken. -/
theorem enter_definition_error (he : e.Valid) {body : List Token}
    (hrefused : e.enter (.definition h) body = (.error fault, rest)) :
    (∃ place, e.admissible h true = .ok place) ∧
        h.name.lexeme ∈ childNames e.tree.nodes e.body ∧
        fault = duplicateNode h.name.position h.name.lexeme ∧ rest = body ∨
      e.admissible h true = .error fault ∧
        fault ≠ duplicateNode h.name.position h.name.lexeme ∧ ClosesBefore 0 body rest := by
  simp only [enter] at hrefused
  split at hrefused
  · rename_i hadmissible
    cases hrefused
    exact .inr ⟨hadmissible, ne_duplicateNode_of_admissible hadmissible _ _,
      closesBefore_skipBody 0 body⟩
  · rename_i place hadmissible
    obtain ⟨hopen, rfl⟩ := Prod.mk.inj hrefused
    obtain ⟨rfl, hmem⟩ := eq_duplicateNode_of_openFunction he hopen
    exact .inl ⟨⟨place, hadmissible⟩, hmem, rfl, rfl⟩

end Environment

namespace Parse

/-- Where a function is refused whose header and opening brace have been read, the parser
goes on behind the brace that closes its body, so that nothing of the body is taken for a
declaration. There is one exception: a function that no rule refuses but whose node would
have the name of another one. After that the parser goes on inside of the body. -/
theorem resumes_after_refused_definition {tokens body : List Token} {entered : List Declaration}
    {e : Environment} {h : FunctionHeader} {fault : Diagnostic}
    (hreach : Reaches tokens entered e (t :: ts))
    (hheader : Spells (Declaration.definition h).patterns (t :: ts) body)
    (hrefused : e.declare (lastPosition tokens) t ts = (.error fault, rest)) :
    (∀ faults, declarations (lastPosition tokens) e faults (t :: ts) =
        declarations (lastPosition tokens) e (faults.push fault) rest) ∧
      ((∃ place, e.admissible h true = .ok place) ∧
          h.name.lexeme ∈ childNames e.tree.nodes e.body ∧
          fault = Environment.duplicateNode h.name.position h.name.lexeme ∧ rest = body ∨
        e.admissible h true = .error fault ∧
          fault ≠ Environment.duplicateNode h.name.position h.name.lexeme ∧
          ClosesBefore 0 body rest) := by
  refine ⟨declarations_of_refused hrefused, ?_⟩
  have hread : Declaration.read (lastPosition tokens) t ts = (.ok (.definition h), body) :=
    Declaration.read_eq_ok_iff.mpr hheader
  simp only [Environment.declare, hread] at hrefused
  exact Environment.enter_definition_error hreach.valid hrefused

/-- A function whose parameters have the same name, with a variable in its body. -/
theorem resumes_after_repeated_parameter :
    let word (kind : TokenKind) (lexeme : String) : Token := ⟨kind, lexeme, none, default⟩
    let int := word (.keyword .int) "int"
    let a := word .identifier "a"
    let f := word .identifier "f"
    let semi := word (.symbol .semi) ";"
    let body := [int, a, semi, word (.symbol .rightBrace) "\x7d"]
    let ts := [f, word (.symbol .leftParen) "(", int, a, word (.symbol .comma) ",", int, a,
      word (.symbol .rightParen) ")", word (.symbol .leftBrace) "\x7b"] ++ body ++ [int, a, semi]
    let h : FunctionHeader := ⟨⟨.int, false⟩, f, [⟨⟨.int, false⟩, a⟩, ⟨⟨.int, false⟩, a⟩]⟩
    let fault : Diagnostic := .declaration default (.duplicateParameter "a")
    Spells (Declaration.definition h).patterns (int :: ts) (body ++ [int, a, semi]) ∧
      Environment.empty.declare (lastPosition (int :: ts)) int ts =
        (.error fault, [int, a, semi]) ∧
      ClosesBefore 0 (body ++ [int, a, semi]) [int, a, semi] := by
  intro word int a f semi body ts h fault
  have hheader : Spells (Declaration.definition h).patterns (int :: ts)
      (body ++ [int, a, semi]) := by decide
  have hrefused : Environment.empty.declare (lastPosition (int :: ts)) int ts =
      (.error fault, [int, a, semi]) := by
    rw [Environment.declare, Declaration.read_eq_ok_iff.mpr hheader]
    rfl
  refine ⟨hheader, hrefused, ?_⟩
  obtain ⟨-, hresumes⟩ := resumes_after_refused_definition .start hheader hrefused
  rcases hresumes with ⟨-, -, hfault, -⟩ | ⟨-, -, hcloses⟩
  · exact absurd hfault (by decide)
  · exact hcloses

/-- The exception: behind a variable, a function that has the name of the variable's node.
The variable in its body is then declared outside of it. -/
theorem leaks_after_duplicate_node :
    ¬ ∀ (tokens : List Token) (entered : List Declaration) (e : Environment) (t : Token)
      (ts : List Token) (h : FunctionHeader) (body : List Token) (fault : Diagnostic)
      (rest : List Token), Reaches tokens entered e (t :: ts) →
      Spells (Declaration.definition h).patterns (t :: ts) body →
      e.declare (lastPosition tokens) t ts = (.error fault, rest) → ClosesBefore 0 body rest := by
  intro hall
  let word (kind : TokenKind) (lexeme : String) : Token := ⟨kind, lexeme, none, default⟩
  let int := word (.keyword .int) "int"
  let semi := word (.symbol .semi) ";"
  let name := word .identifier "Variable0"
  let body := [int, word .identifier "b", semi, word (.symbol .rightBrace) "\x7d"]
  let ts := [name, word (.symbol .leftParen) "(", word (.symbol .rightParen) ")",
    word (.symbol .leftBrace) "\x7b"] ++ body
  let a := word .identifier "a"
  let h : FunctionHeader := ⟨⟨.int, false⟩, name, []⟩
  have hheader : Spells (Declaration.definition h).patterns (int :: ts) body := by decide
  obtain ⟨e, henter, hrefused⟩ : ∃ e,
      Environment.empty.enter (.variable ⟨.int, false⟩ a none) (int :: ts) = (.ok e, int :: ts) ∧
      e.declare default int ts =
        (.error (Environment.duplicateNode default "Variable0"), body) := by
    refine ⟨_, rfl, ?_⟩
    rw [Environment.declare, Declaration.read_eq_ok_iff.mpr hheader]
    simp only [Environment.enter]
    rw [Environment.admissible_first rfl]
    rfl
  have hreach : Reaches (int :: a :: semi :: int :: ts)
      ([] ++ [.variable ⟨.int, false⟩ a none]) e (int :: ts) :=
    Reaches.start.entered rfl henter
  exact not_closesBefore_self (List.cons_ne_nil _ _)
    (hall _ _ _ _ _ h body _ _ hreach hheader hrefused)

end Parse

end SmallC
