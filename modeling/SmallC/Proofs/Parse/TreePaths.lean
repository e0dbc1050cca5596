import SmallC.Proofs.Parse.NodeNames
import SmallC.Proofs.Scan.Identifiers
import SmallC.Proofs.Tree.Paths

/-!
# Paths in the trees of the parser

The parser makes its tree by calls that add children and set attributes. The names that it
gives are generated, or those of functions, which are identifiers; so in the tree of a text no
name has a slash, and every node is found by its path.
-/

namespace SmallC

namespace Tree

/-- Calls that give no name with a slash make one tree of another. -/
def Builds (t t' : Tree) : Prop :=
  ∃ calls : List Call, (∀ call ∈ calls, call.HasNoSlash) ∧ t' = t.afterAll calls

namespace Builds

variable {t t₁ t' : Tree} {parent id : Nat} {name : String}

/-- A tree is built from itself by no calls. -/
theorem refl (t : Tree) : t.Builds t := ⟨[], fun _ h => (nomatch h), rfl⟩

/-- One more call without a slash goes on building. -/
theorem after (h : t.Builds t₁) {call : Call} (hcall : call.HasNoSlash) :
    t.Builds (t₁.after call) := by
  obtain ⟨calls, hcalls, rfl⟩ := h
  refine ⟨calls ++ [call], fun c hc => ?_, ?_⟩
  · rcases List.mem_append.mp hc with hc | hc
    · exact hcalls c hc
    · exact List.mem_singleton.mp hc ▸ hcall
  · rw [Tree.afterAll, Tree.afterAll, List.foldl_append]
    rfl

/-- A child whose name has no slash is one such call. -/
theorem addChild (h : t.Builds t₁) (hadd : t₁.addChild parent name = some (t', id))
    (hname : '/' ∉ name.toList) : t.Builds t' := by
  have hafter : t₁.after (.addChild parent name) = t' := by
    rw [Tree.after, hadd]
    rfl
  exact hafter ▸ h.after hname

/-- An attribute is one such call. -/
theorem setAttribute (h : t.Builds t₁) (id : Nat) (key : String) (value : Attribute) :
    t.Builds (t₁.setAttribute id key value) :=
  have hcall : (Call.setAttribute id key value).HasNoSlash := trivial
  h.after hcall

/-- In a tree that is built from the empty one, paths find their nodes. -/
theorem foundByPath (h : empty.Builds t) : t.FoundByPath := by
  obtain ⟨calls, hcalls, rfl⟩ := h
  exact foundByPath_ofCalls hcalls

end Builds

end Tree

/-- A number behind a stem brings no slash into a name. -/
theorem not_mem_numbered {stem : String} (hstem : '/' ∉ stem.toList) (k : Nat) :
    '/' ∉ s!"{stem}{k}".toList := by
  have htext : s!"{stem}{k}".toList = stem.toList ++ Nat.toDigits 10 k := by
    rw [← Nat.toList_repr]
    exact String.toList_append
  rw [htext, List.mem_append, not_or]
  refine ⟨hstem, fun hmem => ?_⟩
  exact absurd (Nat.isDigit_of_mem_toDigits (by decide) (by decide) hmem) (by decide)

namespace Environment

variable {tree tree' t : Tree} {e e' : Environment} {d : Declaration}

/-- The node of a variable is built without slashes: its name is made by counting. -/
theorem builds_variableNode {body count : Nat} {v : Variable} (ht : t.Builds tree)
    (h : variableNode tree body count v = some tree') : t.Builds tree' := by
  unfold variableNode at h
  split at h
  · cases h
  · rename_i tree₁ node hadd
    have hnode : t.Builds tree₁ := ht.addChild hadd (not_mem_numbered (by decide) count)
    have htyped := (hnode.setAttribute node "Type" (.type v.type.base)).setAttribute node "Ptr"
      (.flag v.type.isPointer)
    dsimp only at h
    split at h <;> cases h
    · exact htyped
    · exact htyped.setAttribute node "Value" _

/-- The nodes of strings are built without slashes. -/
theorem builds_sourceNodes {block index : Nat} {sources : List Token} (ht : t.Builds tree)
    (h : sourceNodes block index tree sources = some tree') : t.Builds tree' := by
  fun_induction sourceNodes block index tree sources with
  | case1 => exact Option.some.inj h ▸ ht
  | case2 => cases h
  | case3 index tree source sources tree₁ node hadd ih =>
    exact ih ((ht.addChild hadd (not_mem_numbered (by decide) index)).setAttribute _ _ _) h

/-- The nodes of parameters are built without slashes. -/
theorem builds_argumentNodes {list index : Nat} {parameters : List (String × TypeSpec)}
    (ht : t.Builds tree) (h : argumentNodes list index tree parameters = some tree') :
    t.Builds tree' := by
  fun_induction argumentNodes list index tree parameters with
  | case1 => exact Option.some.inj h ▸ ht
  | case2 => cases h
  | case3 index tree name type parameters tree₁ node hadd tree₂ tree₃ tree₄ ih =>
    refine ih (Tree.Builds.setAttribute ?_ _ _ _) h
    refine Tree.Builds.setAttribute (Tree.Builds.setAttribute ?_ _ _ _) _ _ _
    exact ht.addChild hadd (not_mem_numbered (by decide) index)

/-- The nodes of a function are built without slashes if its name has none. -/
theorem builds_functionNodes {body inner : Nat} {f : Function} (ht : t.Builds tree)
    (hname : '/' ∉ f.name.toList) (h : functionNodes tree body f = some (tree', inner)) :
    t.Builds tree' := by
  simp only [functionNodes, Option.bind_eq_bind, Option.bind_eq_some_iff, Prod.exists] at h
  obtain ⟨tree₁, node, hnode, tree₂, list, hlist, tree₃, harguments, hbody⟩ := h
  have hlisted := (ht.addChild hnode hname).addChild hlist (by decide)
  exact (builds_argumentNodes hlisted harguments).addChild hbody (by decide)

/-- A declaration that is entered adds its nodes by calls. -/
theorem Takes.builds (h : e.Takes d e') (ht : t.Builds e.tree)
    (hname : ∀ header, d = .definition header → '/' ∉ header.name.lexeme.toList) :
    t.Builds e'.tree := by
  cases d with
  | «variable» type name initializer =>
    simp only [Takes, declareVariable] at h
    split at h
    · cases h
    split at h
    · cases h
    split at h
    · cases h
    split at h
    · cases h
    · rename_i hvariable
      cases h
      exact builds_variableNode ht hvariable
  | prototype header =>
    obtain ⟨-, rfl⟩ := h
    exact ht
  | definition header =>
    obtain ⟨place, -, hopen⟩ := h
    simp only [openFunction] at hopen
    split at hopen
    · cases hopen
    · rename_i tree body hnodes
      cases hopen
      exact builds_functionNodes ht (hname header rfl) hnodes
  | assembly sources =>
    simp only [Takes, addAssembly] at h
    split at h
    · cases h
    · rename_i tree block hadd
      split at h
      · cases h
      · rename_i hsources
        cases h
        exact builds_sourceNodes (ht.addChild hadd (not_mem_numbered (by decide) _)) hsources
  | close brace =>
    simp only [Takes, closeBody] at h
    split at h
    · cases h
    · cases h
      exact ht

end Environment

namespace Parse

variable {tokens rest : List Token} {entered : List Declaration} {e : Environment}

/-- The parser makes its tree by calls. -/
theorem Reaches.builds (hreach : Reaches tokens entered e rest)
    (hnames : ∀ h, Reads tokens (.definition h) → '/' ∉ h.name.lexeme.toList) :
    Tree.empty.Builds e.tree := by
  induction hreach with
  | start => exact .refl _
  | @entered entered e e' t d ts mid rest hreach hread henter ih =>
    obtain ⟨htakes, -⟩ := Environment.enter_eq_ok_iff.mp henter
    refine htakes.builds ih fun header heq => hnames header ?_
    exact ⟨entered, e, t, ts, mid, hreach, heq ▸ hread⟩
  | refused _ _ ih => exact ih

/-- The tree of a text is built without slashes, as no identifier of a text has one. -/
theorem builds_of_tokenize {source : String} (hsource : tokenize source = .ok tokens) :
    Tree.empty.Builds (ofTokens tokens).tree := by
  obtain ⟨entered, e, hreach, htree, -⟩ := exists_reaches tokens
  rw [htree]
  refine hreach.builds fun h hreads => ?_
  obtain ⟨hmem, hkind⟩ := hreads.name_identifier
  exact not_mem_identifier hsource hmem hkind

end Parse

/-- Finding by path and the paths of nodes are inverse, in every tree that is made by calls that
give no name with a slash, and in the tree of every text. -/
theorem Tree.foundByPath_of_calls_of_text :
    (∀ calls : List Tree.Call, (∀ call ∈ calls, call.HasNoSlash) →
      (Tree.ofCalls calls).FoundByPath) ∧
    ∀ source tokens, tokenize source = .ok tokens → (Parse.ofTokens tokens).tree.FoundByPath :=
  ⟨fun _ hcalls => foundByPath_ofCalls hcalls,
    fun _ _ hsource => (Parse.builds_of_tokenize hsource).foundByPath⟩

/-- A name without characters stands between two slashes. -/
theorem Tree.find?_path_of_empty_name :
    (∀ call ∈ [Tree.Call.addChild 1 "", .addChild 2 "f"], call.HasNoSlash) ∧
      (Tree.ofCalls [.addChild 1 "", .addChild 2 "f"]).find? "Unit/Body//f" = some 3 ∧
      ∃ tokens, tokenize "int x;" = .ok tokens ∧ (Parse.ofTokens tokens).tree.FoundByPath := by
  have hcalls : ∀ call ∈ [Tree.Call.addChild 1 "", .addChild 2 "f"], call.HasNoSlash := by
    simp [Tree.Call.HasNoSlash]
  have hpath : (Tree.ofCalls [.addChild 1 "", .addChild 2 "f"]).path 3 = "Unit/Body//f" := by cbv
  obtain ⟨tokens, htokens⟩ : ∃ tokens, tokenize "int x;" = .ok tokens := ⟨_, by cbv⟩
  obtain ⟨hfound, htext⟩ := foundByPath_of_calls_of_text
  exact ⟨hcalls, hpath ▸ (hfound _ hcalls).find?_path 3 (by decide), tokens, htokens,
    htext _ _ htokens⟩

end SmallC
