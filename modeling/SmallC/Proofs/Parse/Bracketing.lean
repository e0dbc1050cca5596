import SmallC.Proofs.Parse.Enclosing
import SmallC.Proofs.Parse.Faults

/-!
# Bodies and scopes are bracketed

A function opens a body and a scope, and the brace that closes the function has to lead back
to the body and the scopes that were there before. The parser finds the way back by the
parents of nodes and the names of functions. Here it is shown that this is the right way,
whatever is declared and refused inside of the function.
-/

namespace SmallC

/-! ## Nested declarations -/

section

variable {depth k : Nat} {ds ds' inside : List Declaration}

/-- Behind declarations that close `depth` bodies only the other open bodies count. -/
theorem nests_append_iff (h : Nests depth ds) : Nests (depth + k) (ds ++ ds') ↔ Nests k ds' := by
  induction ds generalizing depth with
  | nil =>
    obtain rfl : depth = 0 := h
    rw [Nat.zero_add, List.nil_append]
  | cons d ds ih =>
    cases d with
    | definition header =>
      have h : Nests (depth + 1) ds := by simpa only [Nests] using h
      rw [List.cons_append, Nests, Nat.add_right_comm]
      exact ih h
    | close brace =>
      cases depth with
      | zero => exact h.elim
      | succ depth =>
        rw [Nat.add_right_comm]
        exact ih h
    | «variable» type name initializer =>
      have h : Nests depth ds := by simpa only [Nests] using h
      simpa only [List.cons_append, Nests] using ih h
    | prototype header =>
      have h : Nests depth ds := by simpa only [Nests] using h
      simpa only [List.cons_append, Nests] using ih h
    | assembly sources =>
      have h : Nests depth ds := by simpa only [Nests] using h
      simpa only [List.cons_append, Nests] using ih h

/-- Declarations that are nested may come before others. -/
theorem Nests.append (h : Nests 0 ds) (h' : Nests k ds') : Nests k (ds ++ ds') := by
  have hnests := (nests_append_iff h).mpr h'
  rwa [Nat.zero_add] at hnests

/-- A function with all of its body leaves as many bodies open as there were. -/
theorem nests_function (header : FunctionHeader) (brace : Token) (h : Nests 0 inside) :
    Nests 0 (.definition header :: inside ++ [.close brace]) := by
  have hinside : Nests (0 + 1) (inside ++ [.close brace]) := (nests_append_iff h).mpr rfl
  simpa only [List.cons_append, Nests] using hinside

/-- The declarations of a program close every body that they open. -/
theorem nests_of_lists {p : Program} (h : p.Lists ds) : Nests 0 ds := by
  induction p generalizing ds with
  | empty => exact h ▸ rfl
  | «variable» type name initializer rest ih =>
    obtain ⟨after, hafter, rfl⟩ := h
    exact Nests.append rfl (ih hafter)
  | prototype header rest ih =>
    obtain ⟨after, hafter, rfl⟩ := h
    exact Nests.append rfl (ih hafter)
  | definition header body rest ihbody ih =>
    obtain ⟨inside, brace, after, hinside, hafter, rfl⟩ := h
    exact (nests_function header brace (ihbody hinside)).append (ih hafter)
  | assembly sources rest ih =>
    obtain ⟨after, hafter, rfl⟩ := h
    exact Nests.append rfl (ih hafter)

/-- Declarations in the body of a function do not close it: none of them is the brace behind
nested declarations. -/
def LeftOpen (inside : List Declaration) : Prop :=
  ∀ within brace after, inside = within ++ .close brace :: after → ¬ Nests 0 within

/-- What closes only what it opens does not close the body that it is in. -/
theorem leftOpen_of_nests (h : Nests 0 inside) : LeftOpen inside := by
  rintro within brace after rfl hwithin
  have hnests : Nests (0 + 0) (within ++ .close brace :: after) := h
  exact (nests_append_iff hwithin).mp hnests

/-- Where all bodies are closed, the innermost one is. -/
theorem not_leftOpen_of_nests (h : Nests (depth + 1) inside) : ¬ LeftOpen inside := by
  intro hopen
  obtain ⟨p, within, after, hlists, rfl, hend⟩ :=
    startsWithProgram inside.length inside (Nat.le_refl _) _ h
  rcases hend with ⟨hdepth, -⟩ | ⟨outer, brace, after, -, rfl, -⟩
  · cases hdepth
  · exact hopen within brace after rfl (nests_of_lists hlists)

end

/-! ## The innermost open body -/

namespace Environment

variable {e e' outer opened : Environment} {header : FunctionHeader}
  {before inside ds : List Declaration}

/-- Nested declarations let the present body grow. -/
theorem exists_grown_of_nests (he : e.Valid) (h : e.Enters inside e') (hnests : Nests 0 inside) :
    ∃ p, Grown e p e' := by
  obtain ⟨p, hlists⟩ := exists_lists_of_nests hnests
  exact ⟨p, (adds_of_lists hlists he).grown h⟩

/-- The body is at the same depth after declarations that close what they open. -/
theorem depth_of_nests (he : e.Valid) (h : e.Enters inside e') (hnests : Nests 0 inside) :
    e'.depth = e.depth := by
  obtain ⟨p, hgrown⟩ := exists_grown_of_nests he h hnests
  rw [depth, hgrown.outerScopes, depth]

/-- The parts of a run before, at and behind a definition. -/
theorem exists_opened_of_enters (h : empty.Enters (before ++ .definition header :: inside) e) :
    ∃ outer opened, empty.Enters before outer ∧ Opened outer header opened ∧
      opened.Enters inside e ∧ outer.GrowsInto opened ∧ opened.GrowsInto e := by
  obtain ⟨outer, hbefore, opened, htakes, hinside⟩ := enters_append_iff.mp h
  have hopen := enters_singleton_iff.mpr htakes
  exact ⟨outer, opened, hbefore, (opened_of_takes (valid_of_enters hbefore) htakes).2, hinside,
    growsInto_of_enters hbefore hopen,
    growsInto_of_enters (enters_append_iff.mpr ⟨outer, hbefore, hopen⟩) hinside⟩

/-- A body that has been opened is one deeper. -/
theorem Opened.depth (h : Opened outer header opened) : opened.depth = outer.depth + 1 := by
  rw [Environment.depth, h.outerScopes, List.length_cons, Environment.depth]

/-- Inside of a function there is a definition behind which declarations are nested: that of
the innermost function. -/
theorem exists_innermost (h : empty.Enters ds e) (hdepth : 0 < e.depth) :
    ∃ before header inside, ds = before ++ .definition header :: inside ∧ Nests 0 inside := by
  -- a brace closes the function found for the declarations before it, whose own surroundings
  -- are those of a shorter list still
  induction hn : ds.length using Nat.strongRecOn generalizing ds e with | ind n ih => ?_
  subst hn
  rcases List.eq_nil_or_concat ds with rfl | ⟨ds, d, rfl⟩
  · obtain rfl := h
    exact absurd hdepth (Nat.lt_irrefl 0)
  rw [List.concat_eq_append] at h ih ⊢
  obtain ⟨e₁, hds, hd⟩ := enters_append_iff.mp h
  rw [enters_singleton_iff] at hd
  have hlt : ds.length < (ds ++ [d]).length := by simp
  have hstays (hplain : e.depth = e₁.depth) (hnests : Nests 0 [d]) :
      ∃ before header inside, ds ++ [d] = before ++ .definition header :: inside ∧
        Nests 0 inside := by
    obtain ⟨before, header, inside, rfl, hinside⟩ := ih _ hlt hds (hplain ▸ hdepth) rfl
    exact ⟨before, header, inside ++ [d], by simp, hinside.append hnests⟩
  cases d with
  | «variable» type name initializer => exact hstays (depth_of_declareVariable hd) rfl
  | prototype header =>
    obtain ⟨-, rfl⟩ := hd
    exact hstays rfl rfl
  | assembly sources => exact hstays (depth_of_addAssembly hd) rfl
  | definition header => exact ⟨ds, header, [], rfl, rfl⟩
  | close brace =>
    have hclose := depth_of_closeBody hd
    obtain ⟨before, header, inside, rfl, hinside⟩ := ih _ hlt hds (by omega) rfl
    obtain ⟨outer, opened, hbefore, hopened, hrest, -⟩ := exists_opened_of_enters hds
    have hopenedValid := hopened.valid (valid_of_enters hbefore)
    have houter : outer.depth = e.depth := by
      have := depth_of_nests hopenedValid hrest hinside
      have := hopened.depth
      omega
    obtain ⟨before', header', inside', rfl, hinside'⟩ :=
      ih _ (by simp) hbefore (houter ▸ hdepth) rfl
    refine ⟨before', header', inside' ++ (.definition header :: inside ++ [.close brace]), ?_,
      hinside'.append (nests_function header brace hinside)⟩
    simp

/-! ## Nodes around the present body -/

/-- A node keeps its parent. -/
theorem GrowsInto.parent? (h : e.GrowsInto e') {id : Nat} (hid : id < e.tree.nodes.size) :
    e'.tree.parent? id = e.tree.parent? id := by
  have hnode : e.tree.node? id = some e.tree.nodes[id] := Array.getElem?_eq_getElem hid
  obtain ⟨added, hnode', -⟩ := h.nodes id _ hnode
  simp only [Tree.parent?, hnode, hnode', Option.bind_some]

/-- The body of a function is below the node of the function. -/
theorem Opened.parent?_body (h : Opened outer header opened) :
    opened.tree.parent? opened.body = some outer.tree.nodes.size := by
  rw [Tree.parent?_eq, h.nodes, h.body, graft_functionOutline, ← size_graft_arguments]
  exact parentAt?_graft_new _ _ _

/-- The node of a function is below the body in which it is defined. -/
theorem Opened.parent?_function (h : Opened outer header opened) :
    opened.tree.parent? outer.tree.nodes.size = some outer.body := by
  rw [Tree.parent?_eq, h.nodes]
  exact parentAt?_graft_new _ _ _

/-- The function whose body was opened is a function of any later tree. -/
theorem Opened.exists_describes (h : Opened outer header opened) (hgrows : opened.GrowsInto e)
    (hagrees : e.tree.Agrees e.functions) (hsize : opened.body < opened.tree.nodes.size) :
    ∃ arguments, e.tree.Describes outer.tree.nodes.size arguments opened.body
      (.ofDefinition header outer.tree.nodes.size) := by
  have hbody : (Function.ofDefinition header outer.tree.nodes.size).body = some opened.body := by
    rw [h.body]
    rfl
  have hmem : Function.ofDefinition header outer.tree.nodes.size ∈ opened.functions := by
    rw [← Array.mem_toList_iff, h.functions]
    exact Function.mem_place_self _ _
  obtain ⟨i, hi⟩ := Array.mem_iff_getElem?.mp hmem
  -- the function has its body, so that it has not changed since
  obtain ⟨g, hg, rfl | ⟨-, hnone, -⟩⟩ := hgrows.functions i _ hi
  case inr => cases hnone
  obtain ⟨node, arguments, hdescribes⟩ :=
    hagrees.described _ (Array.mem_of_getElem? hg) _ hbody
  have hparent := hdescribes.parent
  rw [hgrows.parent? hsize, h.parent?_body] at hparent
  obtain rfl : outer.tree.nodes.size = node := Option.some.inj hparent
  exact ⟨arguments, hdescribes⟩

/-- The same, for a function in which there are only nested declarations: its body is the
present one. -/
theorem Opened.exists_describes_of_nests (houter : outer.Valid) (h : Opened outer header opened)
    (hinside : opened.Enters inside e) (hnests : Nests 0 inside) (hgrows : opened.GrowsInto e')
    (hagrees : e'.tree.Agrees e'.functions) :
    ∃ arguments, e'.tree.Describes outer.tree.nodes.size arguments e.body
      (.ofDefinition header outer.tree.nodes.size) := by
  have hopened := h.valid houter
  obtain ⟨p, hgrown⟩ := exists_grown_of_nests hopened hinside hnests
  rw [hgrown.body]
  exact h.exists_describes hgrows hagrees hopened.body_lt

/-- As many functions are around the present body as are open; that is so in any later tree
as well. -/
theorem exists_enclosedBy {p : Program} (hp : e'.tree.nodes.toList = p.outline.nodes none 0)
    (hagrees : e'.tree.Agrees e'.functions) (h : empty.Enters ds e) (hgrows : e.GrowsInto e') :
    ∃ functions, e'.tree.EnclosedBy e.body functions ∧ e.depth = functions.length := by
  -- from the innermost function to what was there before it
  induction hn : ds.length using Nat.strongRecOn generalizing ds e with | ind n ih => ?_
  subst hn
  rcases Nat.eq_zero_or_pos e.depth with hdepth | hdepth
  · obtain ⟨p, hgrown⟩ := exists_grown_of_nests Parse.valid_empty h (nests_of_enters h hdepth)
    refine ⟨[], ?_, hdepth⟩
    rw [hgrown.body]
    exact Tree.enclosedBy_unitBody hp
  · obtain ⟨before, header, inside, rfl, hnests⟩ := exists_innermost h hdepth
    obtain ⟨outer, opened, hbefore, hopened, hinside, hgrows₁, hgrows₂⟩ :=
      exists_opened_of_enters h
    have houter := valid_of_enters hbefore
    have hlater := hgrows₂.trans hgrows
    obtain ⟨functions, henclosed, hlength⟩ := ih _ (by simp) hbefore (hgrows₁.trans hlater) rfl
    obtain ⟨arguments, hdescribes⟩ :=
      hopened.exists_describes_of_nests houter hinside hnests hlater hagrees
    have hlt : outer.tree.nodes.size < opened.tree.nodes.size := by
      have := (hopened.valid houter).body_lt
      have := hopened.body
      omega
    have hparent : e'.tree.parent? outer.tree.nodes.size = some outer.body := by
      rw [hlater.parent? hlt, hopened.parent?_function]
    refine ⟨_, henclosed.inside hp hdescribes.isFunction hparent, ?_⟩
    rw [depth_of_nests (hopened.valid houter) hinside hnests, hopened.depth, hlength,
      List.length_cons]

/-- A function is left open if and only if some body is open. -/
theorem depth_pos_iff (h : empty.Enters ds e) :
    0 < e.depth ↔
      ∃ before header inside, ds = before ++ .definition header :: inside ∧ LeftOpen inside := by
  constructor
  · intro hdepth
    obtain ⟨before, header, inside, heq, hnests⟩ := exists_innermost h hdepth
    exact ⟨before, header, inside, heq, leftOpen_of_nests hnests⟩
  · rintro ⟨before, header, inside, rfl, hopen⟩
    obtain ⟨outer, opened, hbefore, hopened, hinside, -⟩ := exists_opened_of_enters h
    refine Nat.pos_of_ne_zero fun hdepth => ?_
    have hnests := nests_of_enters hinside hdepth
    rw [hopened.depth] at hnests
    exact not_leftOpen_of_nests hnests hopen

/-- The scopes before a brace are those after it, below the scope that it closes. -/
theorem scopes_of_closeBody {brace : Token} (h : e.closeBody brace = .ok e') :
    e.outerScopes = e'.scope :: e'.outerScopes := by
  simp only [closeBody] at h
  split at h
  · cases h
  · rename_i hscopes
    cases h
    exact hscopes

/-- The brace behind nested declarations in a function leads back to the body and the scopes
that were there before it. -/
theorem exists_restored (houter : outer.Valid) (hopened : Opened outer header opened)
    (hinside : opened.Enters inside e) (hnests : Nests 0 inside) (brace : Token) :
    ∃ e', e.closeBody brace = .ok e' ∧ e'.body = outer.body ∧ e'.scope = outer.scope ∧
      e'.outerScopes = outer.outerScopes := by
  obtain ⟨p, hgrown⟩ := exists_grown_of_nests (hopened.valid houter) hinside hnests
  obtain ⟨e', hclose, hgrown'⟩ := exists_closed houter hopened hgrown brace
  have hscopes := scopes_of_closeBody hclose
  rw [hgrown.outerScopes, hopened.outerScopes] at hscopes
  obtain ⟨hscope, houterScopes⟩ := List.cons.inj hscopes
  exact ⟨e', hclose, hgrown'.body, hscope.symm, houterScopes.symm⟩

end Environment

namespace Parse

variable {tokens rest : List Token} {before after entered : List Declaration} {e : Environment}

/-- Bodies and scopes are bracketed in an environment that the parser has come to. -/
structure Bracketed (tokens : List Token) (entered : List Declaration) (e : Environment) :
    Prop where
  /-- As many functions are around the present body as are open. -/
  enclosed : ∃ functions, e.tree.EnclosedBy e.body functions ∧ e.depth = functions.length
  /-- If none is open, the present body is that of the unit. -/
  unit : e.depth = 0 → e.body = Tree.unitBody
  /-- Otherwise it is that of the innermost function, behind whose definition declarations
  are nested. -/
  innermost : 0 < e.depth → ∃ before header inside outer rest node arguments,
    entered = before ++ .definition header :: inside ∧ Nests 0 inside ∧
    Reaches tokens before outer rest ∧ outer.tree.size = node ∧
    e.tree.name node = header.name.lexeme ∧ e.tree.IsFunction node arguments e.body
  /-- The brace that closes a function leads back to the body and the scopes that were there
  at its definition, whatever has come in between. -/
  closes : ∀ before header inside outer rest, entered = before ++ .definition header :: inside →
    Nests 0 inside → Reaches tokens before outer rest →
    ∀ brace ts, brace.kind = .symbol .rightBrace →
      ∃ e', e.declare (lastPosition tokens) brace ts = (.ok e', ts) ∧ e'.body = outer.body ∧
        e'.scope = outer.scope ∧ e'.outerScopes = outer.outerScopes

/-- What is reported about bodies that are not closed. -/
structure ReportsUnclosed (tokens : List Token) (entered : List Declaration) : Prop where
  /-- Nothing is reported if all functions are closed. -/
  closed : (∀ before header inside, entered = before ++ .definition header :: inside →
      ¬ LeftOpen inside) →
    (ofTokens tokens).diagnostics.filter Diagnostic.isUnclosedBody = []
  /-- If a function is left open, there is one report, which names the innermost. -/
  leftOpen : ∀ before header inside, entered = before ++ .definition header :: inside →
    LeftOpen inside →
    ∃ before header inside, entered = before ++ .definition header :: inside ∧ Nests 0 inside ∧
      (ofTokens tokens).diagnostics.filter Diagnostic.isUnclosedBody =
        [.declaration (lastPosition tokens) (.unclosedBody header.name.lexeme)]

/-- The parser was at the end of each part of the declarations that it has entered. -/
theorem Reaches.exists_before (h : Reaches tokens (before ++ after) e rest) :
    ∃ e₀ rest₀, Reaches tokens before e₀ rest₀ := by
  generalize hentered : before ++ after = entered at h
  induction h generalizing after with
  | start =>
    obtain ⟨rfl, rfl⟩ := List.append_eq_nil_iff.mp hentered
    exact ⟨_, _, .start⟩
  | @entered entered e e' t d ts mid rest hreach hread henter ih =>
    rcases List.eq_nil_or_concat after with rfl | ⟨after, d', rfl⟩
    · rw [List.append_nil] at hentered
      exact ⟨_, _, hentered ▸ hreach.entered hread henter⟩
    · rw [List.concat_eq_append, ← List.append_assoc] at hentered
      exact ih (List.append_inj_left' hentered rfl)
  | refused _ _ ih => exact ih hentered

/-- A brace closes the innermost body whatever comes behind it. -/
theorem declare_brace {e' : Environment} {brace : Token} {ts : List Token}
    (hbrace : brace.kind = .symbol .rightBrace) (hclose : e.closeBody brace = .ok e') :
    e.declare (lastPosition tokens) brace ts = (.ok e', ts) := by
  have hspells : Spells (Declaration.close brace).patterns (brace :: ts) ts :=
    spells_singleton_iff.mpr ⟨brace, rfl, Pattern.fits_token_iff.mpr ⟨rfl, hbrace⟩⟩
  exact Environment.declare_eq_ok_iff.mpr ⟨_, hspells, hclose⟩

/-- At every moment of a parse bodies and scopes are bracketed. -/
theorem Reaches.bracketed (h : Reaches tokens entered e rest) : Bracketed tokens entered e := by
  obtain ⟨p, hp, htree, hfunctions⟩ := Environment.exists_lawful_of_enters h.enters
  constructor
  case enclosed => exact Environment.exists_enclosedBy htree h.agrees h.enters (.refl e)
  case unit =>
    intro hdepth
    have hnests := Environment.nests_of_enters h.enters hdepth
    obtain ⟨q, hgrown⟩ := Environment.exists_grown_of_nests valid_empty h.enters hnests
    exact hgrown.body
  case innermost =>
    intro hdepth
    obtain ⟨before, header, inside, rfl, hnests⟩ := Environment.exists_innermost h.enters hdepth
    obtain ⟨outer, opened, hbefore, hopened, hinside, -, hgrows⟩ :=
      Environment.exists_opened_of_enters h.enters
    obtain ⟨_, mid, houter⟩ := h.exists_before
    obtain rfl := hbefore.unique houter.enters
    obtain ⟨arguments, hdescribes⟩ :=
      hopened.exists_describes_of_nests houter.valid hinside hnests hgrows h.agrees
    exact ⟨before, header, inside, outer, mid, _, arguments, rfl, hnests, houter, rfl,
      hdescribes.name, hdescribes.isFunction⟩
  case closes =>
    rintro before header inside outer mid rfl hnests houter brace ts hbrace
    obtain ⟨_, opened, hbefore, hopened, hinside, -⟩ :=
      Environment.exists_opened_of_enters h.enters
    obtain rfl := hbefore.unique houter.enters
    obtain ⟨e', hclose, hrestored⟩ :=
      Environment.exists_restored houter.valid hopened hinside hnests brace
    exact ⟨e', declare_brace hbrace hclose, hrestored⟩

/-- The report at the end of the tokens, if a body is open. -/
theorem unclosed_eq (last : Position) (h : Environment.empty.Enters entered e)
    (hdepth : 0 < e.depth) :
    ∃ before header inside, entered = before ++ .definition header :: inside ∧ Nests 0 inside ∧
      unclosed last e = [.declaration last (.unclosedBody header.name.lexeme)] := by
  obtain ⟨before, header, inside, rfl, hnests⟩ := Environment.exists_innermost h hdepth
  obtain ⟨outer, opened, hbefore, hopened, hinside, -, hgrows⟩ :=
    Environment.exists_opened_of_enters h
  obtain ⟨p, hp, htree, hfunctions⟩ := Environment.exists_lawful_of_enters h
  have hagrees := agrees_of_lawful hp htree hfunctions
  have houter := Environment.valid_of_enters hbefore
  obtain ⟨arguments, hdescribes⟩ :=
    hopened.exists_describes_of_nests houter hinside hnests hgrows hagrees
  refine ⟨before, header, inside, rfl, hnests, ?_⟩
  rw [unclosed, if_neg (Nat.ne_of_gt hdepth), hdescribes.parent]
  simp only [Option.map_some, Option.getD_some, hdescribes.name]
  rfl

/-- If the tokens end while bodies are open, each of them has its definition among what was
entered. -/
theorem Reaches.reportsUnclosed (h : Reaches tokens entered e []) :
    ReportsUnclosed tokens entered := by
  constructor
  case closed =>
    intro hclosed
    have hdepth : e.depth = 0 := by
      refine Nat.eq_zero_of_not_pos fun hpos => ?_
      obtain ⟨before, header, inside, heq, hopen⟩ := (Environment.depth_pos_iff h.enters).mp hpos
      exact hclosed before header inside heq hopen
    rw [h.filter_diagnostics, unclosed, if_pos hdepth]
  case leftOpen =>
    intro before header inside heq hopen
    have hdepth := (Environment.depth_pos_iff h.enters).mpr ⟨before, header, inside, heq, hopen⟩
    rw [h.filter_diagnostics]
    exact unclosed_eq _ h.enters hdepth

/-- Bodies and scopes are bracketed at any time, and what is left open at the end is
reported. -/
theorem ofTokens_bracketed (tokens : List Token) :
    (∀ entered e rest, Reaches tokens entered e rest → Bracketed tokens entered e) ∧
      ∃ entered e, Reaches tokens entered e [] ∧ (ofTokens tokens).tree = e.tree ∧
        (ofTokens tokens).functions = e.functions ∧ ReportsUnclosed tokens entered := by
  refine ⟨fun entered e rest h => h.bracketed, ?_⟩
  obtain ⟨entered, e, h, htree, hfunctions⟩ := exists_reaches tokens
  exact ⟨entered, e, h, htree, hfunctions, h.reportsUnclosed⟩

/-- A function in which a variable is declared twice, which is refused. The brace behind that
leads back to the body of the unit. -/
theorem restores_unit_after_duplicate :
    let word (kind : TokenKind) (lexeme : String) : Token := ⟨kind, lexeme, none, default⟩
    let f : FunctionHeader := ⟨⟨.void, false⟩, word .identifier "f", []⟩
    let a := word .identifier "a"
    let int := [word (.keyword .int) "int", a, word (.symbol .semi) ";"]
    let brace := word (.symbol .rightBrace) "\x7d"
    let body := int ++ int ++ [brace]
    let tokens := [word (.keyword .void) "void", f.name, word (.symbol .leftParen) "(",
      word (.symbol .rightParen) ")", word (.symbol .leftBrace) "\x7b"] ++ body
    ∃ e, Reaches tokens [.definition f, .variable ⟨.int, false⟩ a none] e [brace] ∧ e.depth = 1 ∧
      ∃ e', e.declare (lastPosition tokens) brace [] = (.ok e', []) ∧ e'.body = Tree.unitBody ∧
        e'.scope = [] ∧ e'.outerScopes = [] := by
  intro word f a int brace body tokens
  have hheader : Spells (Declaration.definition f).patterns tokens body := by decide
  obtain ⟨e, hreach, hdepth⟩ : ∃ e,
      Reaches tokens [.definition f, .variable ⟨.int, false⟩ a none] e [brace] ∧ e.depth = 1 := by
    obtain ⟨opened, hopen⟩ : ∃ opened, Environment.empty.openFunction f none = .ok opened :=
      ⟨_, rfl⟩
    have htakes : Environment.empty.Takes (.definition f) opened :=
      ⟨none, Environment.admissible_first rfl _ _ _, hopen⟩
    have hdefinition := Reaches.start.entered (Declaration.read_eq_ok_iff.mpr hheader)
      (Environment.enter_eq_ok_iff.mpr ⟨htakes, rfl⟩)
    cases hopen
    exact ⟨_, (hdefinition.entered rfl rfl).refused rfl, rfl⟩
  have hbracketed := (ofTokens_bracketed tokens).1 _ _ _ hreach
  exact ⟨e, hreach, hdepth, hbracketed.closes [] f _ .empty tokens rfl rfl .start brace [] rfl⟩

end Parse

end SmallC
