import SmallC.Proofs.Parse.InPlace

/-!
# What is declared stays

A declaration only adds to what there is: nodes behind the last one, children behind those
of the present body, and functions behind the last one. A function that is there already
may at most get its body.
-/

namespace SmallC

open Outline

/-! ## Nodes -/

/-- A node only gets more children, which are new. -/
theorem exists_getElem?_graft {nodes : Array Node} {parent i : Nat} {n : Node}
    (hn : nodes[i]? = some n) (os : List Outline) :
    ∃ added, (graft nodes parent os)[i]? = some { n with children := n.children ++ added } ∧
      ∀ c ∈ added, nodes.size ≤ c := by
  obtain ⟨hi, -⟩ := Array.getElem?_eq_some_iff.mp hn
  rw [getElem?_graft_of_lt hi, hn]
  by_cases h : i = parent
  · refine ⟨(numbers nodes.size os).toArray, by simp [h], fun c hc => ?_⟩
    exact le_of_mem_numbers (List.mem_toArray.mp hc)
  · exact ⟨#[], by simp [h], fun c hc => absurd hc (Array.not_mem_empty c)⟩

/-! ## Functions -/

namespace Function

variable {f g : Function} {fs table : List Function} {i : Nat}

/-- A function is the same, or it is a prototype that has got its body. -/
def Becomes (f g : Function) : Prop :=
  g = f ∨ g.name = f.name ∧ f.body = none ∧ g.body.isSome ∧ f.sameSignature g

/-- A function that nothing was done to has become itself. -/
theorem Becomes.refl (f : Function) : f.Becomes f := .inl rfl

/-- A function that has its body stays the same from then on. -/
theorem Becomes.trans {k : Function} (h : f.Becomes g) (h' : g.Becomes k) : f.Becomes k := by
  rcases h with rfl | ⟨hname, hnone, hsome, hsignature⟩
  · exact h'
  · rcases h' with rfl | ⟨-, hnone', -⟩
    · exact .inr ⟨hname, hnone, hsome, hsignature⟩
    · rw [hnone'] at hsome
      cases hsome

/-- A function that is placed in a table leaves the others where they are. -/
theorem exists_getElem?_place (hf : ∀ g, table.find? (·.name = f.name) = some g → g.Precedes f)
    (hg : table[i]? = some g) : ∃ g', (f.place table)[i]? = some g' ∧ g.Becomes g' := by
  induction table generalizing i with
  | nil => cases hg
  | cons k table ih =>
    rw [place]
    by_cases hk : k.name = f.name
    · rw [if_pos hk]
      cases i with
      | zero =>
        -- the only place that changes; what is there is found by the name, so it may be replaced
        obtain rfl : k = g := by simpa using hg
        exact ⟨f, rfl, .inr ⟨hk.symm, hf k (by simp [hk]) hk⟩⟩
      | succ i => exact ⟨g, hg, .refl g⟩
    · rw [if_neg hk]
      cases i with
      | zero => exact ⟨g, hg, .refl g⟩
      | succ i => exact ih (fun g hfind => hf g (by simpa [hk] using hfind)) hg

/-- Functions that are allowed leave those in the table where they are. -/
theorem exists_getElem?_foldl_place (hfs : Admits table fs) (hg : table[i]? = some g) :
    ∃ g', (fs.foldl (fun table f => f.place table) table)[i]? = some g' ∧ g.Becomes g' := by
  induction fs generalizing table g with
  | nil => exact ⟨g, hg, .refl g⟩
  | cons f fs ih =>
    obtain ⟨hf, hfs⟩ := hfs
    obtain ⟨g₁, hg₁, hbecomes₁⟩ := exists_getElem?_place hf hg
    obtain ⟨g', hg', hbecomes⟩ := ih hfs hg₁
    exact ⟨g', hg', hbecomes₁.trans hbecomes⟩

end Function

namespace Environment

variable {e e' e'' : Environment} {depth : Nat} {d : Declaration} {ds : List Declaration}

/-- An environment has only grown: a node has its number, name, parent and attributes, and
the children that it had come before the new ones; a function has its place. -/
structure GrowsInto (e e' : Environment) : Prop where
  nodes : ∀ i n, e.tree.node? i = some n →
    ∃ added, e'.tree.node? i = some { n with children := n.children ++ added } ∧
      ∀ c ∈ added, e.tree.size ≤ c
  functions : ∀ (i : Nat) (f : Function), e.functions[i]? = some f →
    ∃ g, e'.functions[i]? = some g ∧ f.Becomes g

namespace GrowsInto

/-- An environment has grown into itself. -/
theorem refl (e : Environment) : e.GrowsInto e where
  nodes _ n hn := ⟨#[], by simpa using hn, by simp⟩
  functions _ f hf := ⟨f, hf, .refl f⟩

/-- Nodes are not lost. -/
theorem size_le (h : e.GrowsInto e') : e.tree.size ≤ e'.tree.size := by
  by_cases hsize : e.tree.size = 0
  · omega
  · have hlast : e.tree.size - 1 < e.tree.nodes.size := Nat.sub_one_lt hsize
    obtain ⟨added, hnode, -⟩ := h.nodes _ _ (Array.getElem?_eq_getElem hlast)
    obtain ⟨hlt, -⟩ := Array.getElem?_eq_some_iff.mp hnode
    exact Nat.le_of_pred_lt hlt

/-- Growing goes on. -/
theorem trans (h : e.GrowsInto e') (h' : e'.GrowsInto e'') : e.GrowsInto e'' where
  nodes i n hn := by
    obtain ⟨added, hnode, hnew⟩ := h.nodes i n hn
    obtain ⟨added', hnode', hnew'⟩ := h'.nodes i _ hnode
    refine ⟨added ++ added', by simpa using hnode', fun c hc => ?_⟩
    rcases Array.mem_append.mp hc with hc | hc
    · exact hnew c hc
    · exact Nat.le_trans h.size_le (hnew' c hc)
  functions i f hf := by
    obtain ⟨g, hg, hbecomes⟩ := h.functions i f hf
    obtain ⟨k, hk, hbecomes'⟩ := h'.functions i g hg
    exact ⟨k, hk, hbecomes.trans hbecomes'⟩

end GrowsInto

/-- A declaration that is entered only adds. -/
theorem growsInto_of_takes (he : e.Valid) (h : e.Takes d e') : e.GrowsInto e' where
  nodes i n hn := by
    obtain ⟨os, hnodes⟩ := exists_graft_of_takes he h
    show ∃ added, e'.tree.nodes[i]? = _ ∧ _
    rw [hnodes]
    exact exists_getElem?_graft hn os
  functions i f hf := by
    obtain ⟨hadmits, htable⟩ := functions_of_takes he h
    rw [← Array.getElem?_toList] at hf
    obtain ⟨g, hg, hbecomes⟩ := Function.exists_getElem?_foldl_place hadmits hf
    exact ⟨g, by rw [← Array.getElem?_toList, htable, hg], hbecomes⟩

/-- What was there stays, whatever is declared after it. -/
theorem Inside.growsInto (he : Inside depth e) (h : e.Enters ds e') : e.GrowsInto e' := by
  induction ds generalizing e depth with
  | nil =>
    obtain rfl := h
    exact .refl e
  | cons d ds ih =>
    obtain ⟨e₁, hd, hds⟩ := h
    obtain ⟨depth₁, he₁⟩ := he.takes hd
    exact (growsInto_of_takes he.valid hd).trans (ih he₁ hds)

/-- An environment that was reached grows into whatever is reached from it. -/
theorem growsInto_of_enters {ds' : List Declaration} (h : empty.Enters ds e)
    (h' : e.Enters ds' e') : e.GrowsInto e' := by
  obtain ⟨depth, he⟩ := inside_empty.enters h
  exact he.growsInto h'

end Environment

namespace Parse

open Environment

variable {tokens ts rest : List Token} {t : Token} {entered : List Declaration} {e : Environment}

/-- A declaration is made as a whole or not at all. If there is a fault, then no change was
made before it, and the environment is what it was. Otherwise all changes are made, and the
environment has only grown. -/
theorem declares_all_or_nothing (hreach : Reaches tokens entered e (t :: ts)) :
    (∃ fault, (e.declare (lastPosition tokens) t ts).1 = .error fault ∧
        (Change.declare (lastPosition tokens) t ts).applyTo e = (.error fault, e)) ∨
      ∃ e', (e.declare (lastPosition tokens) t ts).1 = .ok e' ∧
        (Change.declare (lastPosition tokens) t ts).applyTo e = (.ok (), e') ∧
        e.GrowsInto e' := by
  rw [Change.applyTo_declare hreach.valid]
  rcases hdeclare : e.declare (lastPosition tokens) t ts with ⟨fault | e', rest⟩
  · exact .inl ⟨fault, rfl, rfl⟩
  · obtain ⟨d, mid, -, henter⟩ := exists_read_of_declare hdeclare
    obtain ⟨htakes, -⟩ := enter_eq_ok_iff.mp henter
    exact .inr ⟨e', rfl, rfl, growsInto_of_takes hreach.valid htakes⟩

/-- A function that passes all checks and is refused with its first node, which would have
the name of another one. -/
theorem declares_nothing_of_duplicate_node :
    let word (kind : TokenKind) (lexeme : String) : Token := ⟨kind, lexeme, none, default⟩
    let int := word (.keyword .int) "int"
    let semi := word (.symbol .semi) ";"
    let b := word .identifier "b"
    let name := word .identifier "Variable0"
    let ts := [name, word (.symbol .leftParen) "(", word (.symbol .rightParen) ")",
      word (.symbol .leftBrace) "\x7b"]
    let tokens := [int, b, semi, int] ++ ts
    ∃ e, Reaches tokens [.variable ⟨.int, false⟩ b none] e (int :: ts) ∧
      (Change.declare (lastPosition tokens) int ts).applyTo e =
        (.error (duplicateNode default "Variable0"), e) := by
  intro word int semi b name ts tokens
  have hheader : Spells (Declaration.definition ⟨⟨.int, false⟩, name, []⟩).patterns (int :: ts)
      [] := by decide
  obtain ⟨e, henter, hrefused⟩ : ∃ e,
      Environment.empty.enter (.variable ⟨.int, false⟩ b none) (int :: ts) = (.ok e, int :: ts) ∧
      (e.declare (lastPosition tokens) int ts).1 =
        .error (duplicateNode default "Variable0") := by
    refine ⟨_, rfl, ?_⟩
    rw [Environment.declare, Declaration.read_eq_ok_iff.mpr hheader]
    simp only [Environment.enter]
    rw [admissible_first rfl]
    rfl
  have hreach : Reaches tokens [.variable ⟨.int, false⟩ b none] e (int :: ts) :=
    Reaches.start.entered rfl henter
  refine ⟨e, hreach, ?_⟩
  rcases declares_all_or_nothing hreach with ⟨fault, hfault, happly⟩ | ⟨e', he', -⟩
  · rw [hrefused] at hfault
    cases hfault
    exact happly
  · rw [hrefused] at he'
    cases he'

end Parse

end SmallC
