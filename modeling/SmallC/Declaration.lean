import SmallC.Constant
import SmallC.Diagnostic

/-!
# Declarations

A declaration is read from the tokens before anything is asked about the names in
it. Reading takes at least one token, also where it fails, and goes on after the
last token that was taken.
-/

namespace SmallC

/-- A parameter of a function. -/
structure Parameter where
  /-- The type. -/
  type : TypeSpec
  /-- The name. -/
  name : Token
  deriving DecidableEq, Inhabited, Repr

/-- What a function is declared with before its body. -/
structure FunctionHeader where
  /-- The type in front of the name. -/
  type : TypeSpec
  /-- The name. -/
  name : Token
  /-- The parameters. -/
  parameters : List Parameter
  deriving DecidableEq, Inhabited, Repr

/-- A declaration: a variable, a function without or with a body to follow, a
block of assembly, or the end of a body. -/
inductive Declaration where
  | variable (type : TypeSpec) (name : Token) (initializer : Option Token)
  | prototype (header : FunctionHeader)
  | definition (header : FunctionHeader)
  | assembly (sources : List Token)
  | close (brace : Token)
  deriving DecidableEq, Inhabited, Repr

namespace Declaration

/-- The result of reading and the tokens after it. -/
abbrev Reading (α : Type) := Except Diagnostic α × List Token

/-- The fault of a token in the place of something else. -/
def unexpected (t : Token) (expected : String) : Diagnostic :=
  .declaration t.position (.unexpectedToken expected t.kind)

/-- The fault of tokens that end where something else has to follow; it is
reported at the last token. -/
def ended (last : Position) (expected : String) : Diagnostic :=
  .declaration last (.unexpectedEnd expected)

/-- Goes on with what was read, unless reading has failed. -/
def andThen {α β : Type} (r : Reading α) (f : α → List Token → Reading β) : Reading β :=
  match r with
  | (.error d, rest) => (.error d, rest)
  | (.ok a, rest) => f a rest

/-- Any one token. -/
def next (last : Position) (expected : String) : List Token → Reading Token
  | [] => (.error (ended last expected), [])
  | t :: ts => (.ok t, ts)

/-- A token of one kind; another token is taken all the same. -/
def expect (last : Position) (kind : TokenKind) (expected : String) : List Token → Reading Token
  | [] => (.error (ended last expected), [])
  | t :: ts => if t.kind = kind then (.ok t, ts) else (.error (unexpected t expected), ts)

/-- The tokens start with a symbol. -/
def startsWith (sign : Symbol) : List Token → Bool
  | [] => false
  | t :: _ => t.kind = .symbol sign

/-- A primitive type and possibly a star. -/
def typeSpec (last : Position) : List Token → Reading TypeSpec
  | [] => (.error (ended last "type specifier"), [])
  | t :: ts =>
    match Primitive.ofKind? t.kind with
    | none => (.error (unexpected t "type specifier"), ts)
    | some base =>
      if startsWith .star ts then (.ok ⟨base, true⟩, ts.tail) else (.ok ⟨base, false⟩, ts)

/-- A type and a name. -/
def parameter (last : Position) (ts : List Token) : Reading Parameter :=
  andThen (typeSpec last ts) fun type ts =>
    andThen (expect last .identifier "parameter name" ts) fun name ts =>
      (.ok ⟨type, name⟩, ts)

/-- The next token is taken from what is there, so nothing is added to the rest. -/
theorem length_next (last : Position) (expected : String) (ts : List Token) :
    (next last expected ts).2.length ≤ ts.length := by
  cases ts <;> simp [next]

/-- A token that is asked for by its kind is taken in the same way. -/
theorem length_expect (last : Position) (kind : TokenKind) (expected : String)
    (ts : List Token) : (expect last kind expected ts).2.length ≤ ts.length := by
  cases ts with
  | nil => simp [expect]
  | cons t ts =>
    simp only [expect]
    split <;> simp

/-- Two readings one after the other leave no more than a bound, if each of them does. -/
theorem length_andThen {α β : Type} {r : Reading α} {f : α → List Token → Reading β} {n : Nat}
    (hr : r.2.length ≤ n) (hf : ∀ a ts, ts.length ≤ n → (f a ts).2.length ≤ n) :
    (andThen r f).2.length ≤ n := by
  unfold andThen
  split
  · exact hr
  · exact hf _ _ hr

/-- A type takes at least one token, even if it is no type. -/
theorem length_typeSpec (last : Position) (ts : List Token) :
    (typeSpec last ts).2.length ≤ ts.length - 1 := by
  cases ts with
  | nil => simp [typeSpec]
  | cons t ts =>
    simp only [typeSpec]
    split
    · simp
    · split <;> simp

/-- A parameter takes at least the first token of its type. -/
theorem length_parameter (last : Position) (ts : List Token) :
    (parameter last ts).2.length ≤ ts.length - 1 :=
  length_andThen (length_typeSpec last ts) fun _ us hus =>
    length_andThen (Nat.le_trans (length_expect last _ _ us) hus) fun _ _ h => h

/-- One or more parameters up to the closing parenthesis, after the reversed
`done`. -/
def parameters (last : Position) (done : List Parameter) (ts : List Token) :
    Reading (List Parameter) :=
  match h : parameter last ts with
  | (.error d, rest) => (.error d, rest)
  | (.ok p, rest) =>
    match rest, h with
    | [], _ => (.error (ended last "',' or ')'"), [])
    | t :: rest', _h =>
      if t.kind = .symbol .rightParen then (.ok (done.reverse ++ [p]), rest')
      else if t.kind = .symbol .comma then parameters last (p :: done) rest'
      else (.error (unexpected t "',' or ')'"), rest')
termination_by ts.length
decreasing_by
  have hlength := length_parameter last ts
  simp only [_h, List.length_cons] at hlength
  omega

/-- The parameters after an opening parenthesis, up to the closing one. -/
def parameterList (last : Position) (ts : List Token) : Reading (List Parameter) :=
  if startsWith .rightParen ts then (.ok [], ts.tail) else parameters last [] ts

/-- A function, after its opening parenthesis. -/
def readFunction (last : Position) (type : TypeSpec) (name : Token) (ts : List Token) :
    Reading Declaration :=
  andThen (parameterList last ts) fun ps ts =>
    andThen (next last "';' or '\x7b'" ts) fun t ts =>
      if t.kind = .symbol .semi then (.ok (.prototype ⟨type, name, ps⟩), ts)
      else if t.kind = .symbol .leftBrace then (.ok (.definition ⟨type, name, ps⟩), ts)
      else (.error (unexpected t "';' or '\x7b'"), ts)

/-- A variable, after its name: it may have one token as its initializer. -/
def readVariable (last : Position) (type : TypeSpec) (name : Token) (ts : List Token) :
    Reading Declaration :=
  andThen (next last "';'" ts) fun t ts =>
    if t.kind = .symbol .eq then
      andThen (next last "constant initializer" ts) fun value ts =>
        andThen (expect last (.symbol .semi) "';'" ts) fun _ ts =>
          (.ok (.variable type name (some value)), ts)
    else if t.kind = .symbol .semi then (.ok (.variable type name none), ts)
    else (.error (unexpected t "';'"), ts)

/-- A variable or a function, from its type on. -/
def readTyped (last : Position) (ts : List Token) : Reading Declaration :=
  andThen (typeSpec last ts) fun type ts =>
    andThen (expect last .identifier "identifier" ts) fun name ts =>
      if startsWith .leftParen ts then readFunction last type name ts.tail
      else readVariable last type name ts

/-- The strings of a block of assembly up to its closing brace, after the
reversed `done`. -/
def sources (last : Position) (done : List Token) : List Token → Reading (List Token)
  | [] => (.error (ended last "string literal or '\x7d'"), [])
  | t :: ts =>
    if t.kind = .symbol .rightBrace then (.ok done.reverse, ts)
    else if t.kind = .string then sources last (t :: done) ts
    else (.error (unexpected t "string literal or '\x7d'"), ts)

/-- A block of assembly, after its first word. -/
def readAssembly (last : Position) (ts : List Token) : Reading Declaration :=
  andThen (expect last (.symbol .leftBrace) "'\x7b' after __asm__" ts) fun _ ts =>
    andThen (sources last [] ts) fun strings ts => (.ok (.assembly strings), ts)

/-- The declaration that starts with the token `t`; `last` is the position of the
last token of all. -/
def read (last : Position) (t : Token) (ts : List Token) : Reading Declaration :=
  if (Primitive.ofKind? t.kind).isSome then readTyped last (t :: ts)
  else if t.kind = .keyword .asm then readAssembly last ts
  else if t.kind = .symbol .rightBrace then (.ok (.close t), ts)
  else (.error (.declaration t.position (.noDeclaration t.kind t.lexeme)), ts)

/-- A list of parameters leaves no more tokens than there were behind its parenthesis. -/
theorem length_parameters (last : Position) (done : List Parameter) (ts : List Token) :
    (parameters last done ts).2.length ≤ ts.length := by
  fun_induction parameters last done ts with
  | case1 done ts d rest h =>
    have := length_parameter last ts
    rw [h] at this
    simp only at this ⊢
    omega
  | case2 => simp
  | case3 done ts p t rest' h =>
    have := length_parameter last ts
    rw [h] at this
    simp only [List.length_cons] at this ⊢
    omega
  | case4 done ts p t rest' h hparen hcomma ih =>
    have := length_parameter last ts
    rw [h] at this
    simp only [List.length_cons] at this ⊢
    omega
  | case5 done ts p t rest' h hparen hcomma =>
    have := length_parameter last ts
    rw [h] at this
    simp only [List.length_cons] at this ⊢
    omega

/-- The strings of a block of assembly leave no more tokens than there were before them. -/
theorem length_sources (last : Position) (done ts : List Token) :
    (sources last done ts).2.length ≤ ts.length := by
  induction ts generalizing done with
  | nil => simp [sources]
  | cons t ts ih =>
    simp only [sources]
    split
    · simp
    · split
      · exact Nat.le_succ_of_le (ih _)
      · simp

/-- A function leaves no more tokens than there are behind its parenthesis. -/
theorem length_readFunction (last : Position) (type : TypeSpec) (name : Token) (ts : List Token) :
    (readFunction last type name ts).2.length ≤ ts.length := by
  refine length_andThen ?_ fun ps us hus => length_andThen ?_ fun t vs hvs => ?_
  · unfold parameterList
    split
    · simp
    · exact length_parameters last [] ts
  · exact Nat.le_trans (length_next last _ us) hus
  · split
    · exact hvs
    · split <;> exact hvs

/-- A variable leaves no more tokens than there are behind its name. -/
theorem length_readVariable (last : Position) (type : TypeSpec) (name : Token) (ts : List Token) :
    (readVariable last type name ts).2.length ≤ ts.length := by
  refine length_andThen (length_next last _ ts) fun t us hus => ?_
  split
  · refine length_andThen (Nat.le_trans (length_next last _ us) hus) fun value vs hvs => ?_
    exact length_andThen (Nat.le_trans (length_expect last _ _ vs) hvs) fun _ _ h => h
  · split <;> exact hus

/-- A declaration that starts with a type takes at least its first token. -/
theorem length_readTyped (last : Position) (t : Token) (ts : List Token) :
    (readTyped last (t :: ts)).2.length ≤ ts.length := by
  refine length_andThen ?_ fun type us hus => length_andThen ?_ fun name vs hvs => ?_
  · simpa using length_typeSpec last (t :: ts)
  · exact Nat.le_trans (length_expect last _ _ us) hus
  · split
    · exact Nat.le_trans (length_readFunction last type name vs.tail) (by simp; omega)
    · exact Nat.le_trans (length_readVariable last type name vs) hvs

/-- A block of assembly leaves no more tokens than there are behind its keyword. -/
theorem length_readAssembly (last : Position) (ts : List Token) :
    (readAssembly last ts).2.length ≤ ts.length := by
  refine length_andThen (length_expect last _ _ ts) fun _ us hus => ?_
  exact length_andThen (Nat.le_trans (length_sources last [] us) hus) fun _ _ h => h

/-- A declaration leaves no more tokens than there are after its first one. -/
theorem length_read (last : Position) (t : Token) (ts : List Token) :
    (read last t ts).2.length ≤ ts.length := by
  unfold read
  split
  · exact length_readTyped last t ts
  · split
    · exact length_readAssembly last ts
    · split <;> exact Nat.le_refl _

end Declaration

end SmallC
