import SmallC.Parse
import SmallC.Proofs.Parse.Nesting
import SmallC.Proofs.Parse.Rules

/-!
# What the parser accepts

Tokens are parsed without a fault exactly if they spell a program that obeys the rules,
and then the tree and the functions are those that the program describes.
-/

namespace SmallC

variable {e e' : Environment} {last : Position} {ts rest : List Token} {faults : Array Diagnostic}

/-! ## The loop -/

/-- A declaration is read from the tokens that spell it, and entered. -/
theorem Environment.declare_eq_ok_iff {t : Token} :
    e.declare last t ts = (.ok e', rest) ↔
      ∃ d : Declaration, Spells d.patterns (t :: ts) rest ∧ e.Takes d e' := by
  unfold declare
  constructor
  · intro h
    split at h
    · cases h
    · rename_i d mid hread
      obtain ⟨htakes, rfl⟩ := enter_eq_ok_iff.mp h
      exact ⟨d, Declaration.read_eq_ok_iff.mp hread, htakes⟩
  · rintro ⟨d, hspells, htakes⟩
    have hread : Declaration.read last t ts = (.ok d, rest) :=
      Declaration.read_eq_ok_iff.mpr hspells
    simp only [hread]
    exact enter_eq_ok_iff.mpr ⟨htakes, rfl⟩

/-- No declaration is spelled by nothing, so that each takes up a token. -/
theorem not_spells_nil (d : Declaration) : ¬ Spells d.patterns [] rest := by
  cases d with
  | «variable» type name initializer =>
    cases initializer <;> exact id
  | prototype h => exact id
  | definition h => exact id
  | assembly sources => exact id
  | close brace => exact id

namespace Parse

/-- Faults are only added. -/
theorem size_declarations (last : Position) (e : Environment) (faults : Array Diagnostic)
    (ts : List Token) : faults.size ≤ (declarations last e faults ts).2.size := by
  fun_induction declarations last e faults ts with
  | case1 => exact Nat.le_refl _
  | case2 e faults t ts e₁ rest h ih => exact ih
  | case3 e faults t ts d rest h ih =>
    rw [Array.size_push] at ih
    exact Nat.le_of_succ_le ih

/-- No fault is noted exactly if the tokens spell declarations that are all entered. -/
theorem declarations_eq_iff :
    declarations last e faults ts = (e', faults) ↔
      ∃ ds, Spells (ds.flatMap Declaration.patterns) ts [] ∧ e.Enters ds e' := by
  fun_induction declarations last e faults ts with
  | case1 e faults =>
    constructor
    · rintro ⟨⟩
      exact ⟨[], rfl, rfl⟩
    · rintro ⟨ds, hspells, henters⟩
      cases ds with
      | nil =>
        obtain rfl := henters
        rfl
      | cons d ds =>
        obtain ⟨mid, hd, -⟩ := spells_append_iff.mp hspells
        exact absurd hd (not_spells_nil d)
  | case2 e faults t ts e₁ rest h ih =>
    rw [ih]
    constructor
    · rintro ⟨ds, hspells, henters⟩
      obtain ⟨d, hd, htakes⟩ := Environment.declare_eq_ok_iff.mp h
      exact ⟨d :: ds, spells_append_iff.mpr ⟨rest, hd, hspells⟩, e₁, htakes, henters⟩
    · rintro ⟨ds, hspells, henters⟩
      cases ds with
      | nil => cases hspells
      | cons d ds =>
        obtain ⟨mid, hd, hds⟩ := spells_append_iff.mp hspells
        obtain ⟨e₂, htakes, henters⟩ := henters
        have hdeclare : e.declare last t ts = (.ok e₂, mid) :=
          Environment.declare_eq_ok_iff.mpr ⟨d, hd, htakes⟩
        rw [h] at hdeclare
        cases hdeclare
        exact ⟨ds, hds, henters⟩
  | case3 e faults t ts fault rest h ih =>
    constructor
    · intro heq
      have hsize := size_declarations last e (faults.push fault) rest
      rw [heq, Array.size_push] at hsize
      exact absurd hsize (Nat.not_succ_le_self _)
    · rintro ⟨ds, hspells, henters⟩
      cases ds with
      | nil => cases hspells
      | cons d ds =>
        obtain ⟨mid, hd, -⟩ := spells_append_iff.mp hspells
        obtain ⟨e₂, htakes, -⟩ := henters
        have hdeclare : e.declare last t ts = (.ok e₂, mid) :=
          Environment.declare_eq_ok_iff.mpr ⟨d, hd, htakes⟩
        rw [h] at hdeclare
        cases hdeclare

/-! ## The start -/

/-- The tree that parsing starts with is a unit with an empty body. -/
theorem nodes_empty : Environment.empty.tree.nodes =
    graft #[⟨"Unit", [], #[], none⟩] 0 [.node "Body" [] []] := rfl

/-- The unit alone has its children in their places, as it has none. -/
theorem bounded_unit : Bounded #[⟨"Unit", [], #[], none⟩] := by
  intro i n hn c hc
  obtain ⟨hi, rfl⟩ := Array.getElem?_eq_some_iff.mp hn
  obtain rfl : i = 0 := Nat.lt_one_iff.mp hi
  cases hc
  contradiction

/-- Parsing starts in a body that is there. -/
theorem valid_empty : Environment.empty.Valid := by
  constructor
  · rw [nodes_empty]
    exact bounded_unit.graft
  · decide

/-- Nothing is in the way of the first declaration. -/
theorem context_empty : Environment.empty.context = .start := by
  have hsiblings : childNames Environment.empty.tree.nodes Environment.empty.body = [] := by
    rw [nodes_empty]
    exact childNames_graft_new bounded_unit "Body" [] []
  unfold Environment.context
  rw [hsiblings]
  rfl

/-- Nodes that are put below the unit alone are numbered as an outline numbers them. -/
theorem toList_graft_unit (os : List Outline) :
    (graft #[⟨"Unit", [], #[], none⟩] 0 os).toList = (Outline.node "Unit" [] os).nodes none 0 := by
  simp [graft, Outline.nodes]

/-- What a program adds to the first two nodes is its tree. -/
theorem nodes_of_grown {p : Program} (h : Environment.Grown Environment.empty p e') :
    e'.tree.nodes.toList = p.outline.nodes none 0 := by
  have hcount : Environment.empty.childCount = 0 := by
    rw [Environment.childCount_eq, context_empty]
    rfl
  have hnodes : e'.tree.nodes = graft #[⟨"Unit", [], #[], none⟩] 0
      [.node "Body" [] (p.outlines 0)] := by
    rw [h.nodes, hcount, nodes_empty]
    exact graft_leaf "Body" [] (p.outlines 0)
  rw [hnodes, toList_graft_unit]
  rfl

/-- An environment that a program has been added to from nothing has the functions of the
program. -/
theorem functions_of_grown {p : Program} (h : Environment.Grown Environment.empty p e') :
    e'.functions.toList = p.functions := h.functions

/-! ## Acceptance -/

/-- No body is reported as open exactly if none is. -/
theorem unclosed_eq_nil_iff : unclosed last e = [] ↔ e.depth = 0 := by
  unfold unclosed
  by_cases h : e.depth = 0 <;> simp [h]

/-- What is returned is what the parser has come to at the end, with the faults and the bodies that
are still open. -/
theorem exists_ofTokens_eq (ts : List Token) :
    ∃ last, ∀ e' faults, declarations last Environment.empty #[] ts = (e', faults) →
      ofTokens ts = ⟨e'.tree, e'.functions, faults.toList ++ unclosed last e'⟩ := by
  refine ⟨(ts.getLast?.map (·.position)).getD default, fun e' faults h => ?_⟩
  simp only [ofTokens, h]

/-- A program that obeys the rules is entered from its tokens. -/
theorem exists_declarations {p : Program} (last : Position) (hspelled : p.SpelledBy ts)
    (hlawful : p.Lawful) :
    ∃ e', declarations last Environment.empty #[] ts = (e', #[]) ∧
      Environment.Grown Environment.empty p e' := by
  obtain ⟨ds, hlists, hspells⟩ := (spelledInTurn p ts []).mp hspelled
  have hadmissible : p.Admissible Environment.empty.context := by
    rw [context_empty]
    exact Program.admissible_start_iff.mpr hlawful
  obtain ⟨e', henters, hgrown⟩ :=
    (Environment.adds_of_lists hlists valid_empty).exists_enters hadmissible
  exact ⟨e', declarations_eq_iff.mpr ⟨ds, hspells, henters⟩, hgrown⟩

/-- Tokens whose declarations are all entered, and whose bodies are all closed, are those
of a program that obeys the rules. -/
theorem exists_program (h : declarations last Environment.empty #[] ts = (e', #[]))
    (hdepth : e'.depth = 0) : ∃ p : Program, p.SpelledBy ts ∧ p.Lawful := by
  obtain ⟨ds, hspells, henters⟩ := declarations_eq_iff.mp h
  obtain ⟨p, hlists⟩ := exists_lists_of_nests (Environment.nests_of_enters henters hdepth)
  have hadmissible : p.Admissible Environment.empty.context :=
    (Environment.adds_of_lists hlists valid_empty).allowed_of_enters e' henters
  rw [context_empty] at hadmissible
  exact ⟨p, (spelledInTurn p ts []).mpr ⟨ds, hlists, hspells⟩,
    Program.admissible_start_iff.mp hadmissible⟩

/-- There is no fault exactly if the tokens spell a program that obeys the rules. The
nodes of the tree are then those of the program, numbered one after the other, and the
functions are those of the program. Which number of its type
an initializer stands for, `Constant.eq_toInt_iff` says by itself. -/
theorem ofTokens_accepts_iff (ts : List Token) :
    ((ofTokens ts).diagnostics = [] ↔ ∃ p : Program, p.SpelledBy ts ∧ p.Lawful) ∧
      ∀ p : Program, p.SpelledBy ts → p.Lawful →
        (ofTokens ts).tree.nodes.toList = p.outline.nodes none 0 ∧
        (ofTokens ts).tree.outline = p.outline ∧
        (ofTokens ts).functions.toList = p.functions := by
  obtain ⟨last, hparse⟩ := exists_ofTokens_eq ts
  refine ⟨⟨fun hnone => ?_, ?_⟩, fun p hspelled hlawful => ?_⟩
  · generalize hresult : declarations last Environment.empty #[] ts = result at hparse
    obtain ⟨e', faults⟩ := result
    rw [hparse e' faults rfl, List.append_eq_nil_iff, Array.toList_eq_nil_iff] at hnone
    obtain ⟨rfl, hclosed⟩ := hnone
    exact exists_program hresult (unclosed_eq_nil_iff.mp hclosed)
  · rintro ⟨p, hspelled, hlawful⟩
    obtain ⟨e', hresult, hgrown⟩ := exists_declarations last hspelled hlawful
    have hdepth : e'.depth = 0 := by
      rw [Environment.depth, hgrown.outerScopes]
      rfl
    rw [hparse e' #[] hresult, List.append_eq_nil_iff]
    exact ⟨rfl, unclosed_eq_nil_iff.mpr hdepth⟩
  · obtain ⟨e', hresult, hgrown⟩ := exists_declarations last hspelled hlawful
    rw [hparse e' #[] hresult]
    have hnodes : e'.tree.nodes.toList = p.outline.nodes none 0 := nodes_of_grown hgrown
    exact ⟨hnodes, Tree.outline_eq hnodes, functions_of_grown hgrown⟩

/-- A prototype, a variable, and the function with a variable of the same name. -/
theorem ofTokens_accepts_shadowing :
    let word (kind : TokenKind) (lexeme : String) : Token := ⟨kind, lexeme, none, default⟩
    let n := word .identifier "n"
    let f := word .identifier "f"
    let seven : Token := ⟨.number, "7", some (.whole 7), default⟩
    let start := [word (.keyword .void) "void", f, word (.symbol .leftParen) "(",
      word (.symbol .rightParen) ")"]
    let semi := word (.symbol .semi) ";"
    let ts := start ++ [semi, word (.keyword .int) "int", n, word (.symbol .eq) "=", seven, semi] ++
      start ++ [word (.symbol .leftBrace) "\x7b", word (.keyword .char) "char", n, semi,
        word (.symbol .rightBrace) "\x7d"]
    let h : FunctionHeader := ⟨⟨.void, false⟩, f, []⟩
    let p : Program := .prototype h (.variable ⟨.int, false⟩ n (some seven)
      (.definition h (.variable ⟨.char, false⟩ n none .empty) .empty))
    p.SpelledBy ts ∧ p.Lawful ∧ (ofTokens ts).diagnostics = [] ∧
      (ofTokens ts).tree.outline = p.outline ∧ (ofTokens ts).functions.toList = p.functions := by
  intro word n f seven start semi ts h p
  have hspelled : p.SpelledBy ts := by decide
  have hlawful : p.Lawful := by decide +kernel
  obtain ⟨haccepts, hdescribes⟩ := ofTokens_accepts_iff ts
  obtain ⟨-, houtline, hfunctions⟩ := hdescribes p hspelled hlawful
  exact ⟨hspelled, hlawful, haccepts.mpr ⟨p, hspelled, hlawful⟩, houtline, hfunctions⟩

end Parse

end SmallC
