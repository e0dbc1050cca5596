import SmallC.Proofs.Text.Words
import SmallC.Proofs.Tree.Printing

/-!
# Reading printed trees

Attributes and children are written in the same parentheses, one after the other. Still a tree on
one line can be read in one way only, as long as its names are identifiers: a name ends at the
first space or parenthesis, an attribute has something else than a parenthesis behind its key, and
no parenthesis within a quoted text can be taken for one of the tree.
-/

namespace SmallC

namespace Tree

/-- Nodes of two trees that look alike: they have the same name, attributes that are alike under
the same keys, and children that look alike, in the same order. -/
inductive Resembles (t u : Tree) : Nat → Nat → Prop
  | node {i j : Nat} (name : t.name i = u.name j)
    (attributes : List.Forall₂ (fun a b => a.1 = b.1 ∧ a.2.Alike b.2) (t.attributes i)
      (u.attributes j))
    (children : List.Forall₂ (t.Resembles u) (t.children i).toList (u.children j).toList) :
    t.Resembles u i j

/-- Names that are of one kind are of every wider one. -/
theorem EachNamed.mono {t : Tree} {p q : String → Prop} (ht : t.EachNamed p)
    (h : ∀ s, p s → q s) : t.EachNamed q :=
  fun n hn => ⟨h _ (ht n hn).1, fun e he => h _ ((ht n hn).2 e he)⟩

end Tree

namespace Sexp

variable {t u : Tree} {depth : Nat} {ids js : List Nat} {cs ds : List Char}

/-- The attributes of a node on one line. -/
def attributesText (values : Attributes) : List Char :=
  values.flatMap fun e => ' ' :: attributeText e

/-- Nodes on one line. -/
def nodesText (t : Tree) (depth : Nat) (ids : List Nat) : List Char :=
  ids.flatMap fun id => ' ' :: outlineText false depth (t.outlineAt id)

/-- The text of a node with what is behind it, cut into its name, its attributes and its
children. -/
theorem outlineText_append (t : Tree) (depth id : Nat) (cs : List Char) :
    outlineText false depth (t.outlineAt id) ++ cs = '(' :: ((t.name id).toList ++
      (attributesText (t.attributes id) ++
        (nodesText t (depth + 1) (t.children id).toList ++ ')' :: cs))) := by
  rw [outlineText_outlineAt]
  simp only [List.cons_append, List.append_assoc, List.nil_append]
  rfl

/-! ## Names -/

/-- A word, which is read up to the first character that identifiers do not go on with. -/
def IsWord (s : String) : Prop := ∀ c ∈ s.toList, Text.continuesIdentifier c

/-- What comes behind the name of a node: its closing parenthesis, or a space and the opening
parenthesis of an attribute or a child. -/
def FollowsName (cs : List Char) : Prop :=
  (∃ rest, cs = ')' :: rest) ∨ ∃ rest, cs = ' ' :: '(' :: rest

/-- What comes behind the attributes does not go on with the name. -/
theorem followsName_nodes (t : Tree) (depth : Nat) (ids : List Nat) (cs : List Char) :
    FollowsName (nodesText t depth ids ++ ')' :: cs) := by
  cases ids with
  | nil => exact .inl ⟨cs, rfl⟩
  | cons id ids =>
    right
    rw [nodesText, List.flatMap_cons, List.append_assoc, List.cons_append, outlineText_append]
    exact ⟨_, rfl⟩

/-- What comes behind the name does not go on with it, whether there are attributes or not. -/
theorem followsName_attributes (values : Attributes) (hcs : FollowsName cs) :
    FollowsName (attributesText values ++ cs) := by
  cases values with
  | nil => exact hcs
  | cons e values => exact .inr ⟨_, rfl⟩

/-- What follows a name starts with a character that no name has. -/
theorem FollowsName.exists_end (h : FollowsName cs) :
    ∃ c rest, cs = c :: rest ∧ Text.continuesIdentifier c = false := by
  rcases h with ⟨rest, rfl⟩ | ⟨rest, rfl⟩
  · exact ⟨')', rest, rfl, rfl⟩
  · exact ⟨' ', _, rfl, rfl⟩

/-- Names are told apart by their text and what follows it. -/
theorem name_append_inj {s s' : String} (hs : IsWord s) (hs' : IsWord s') (hcs : FollowsName cs)
    (hds : FollowsName ds) (h : s.toList ++ cs = s'.toList ++ ds) : s = s' ∧ cs = ds := by
  obtain ⟨c, rest, rfl, hc⟩ := hcs.exists_end
  obtain ⟨d, rest', rfl, hd⟩ := hds.exists_end
  obtain ⟨hname, rfl, rfl⟩ := Text.append_cons_inj hs hc hs' hd h
  exact ⟨String.toList_inj.mp hname, rfl⟩

/-! ## Attributes -/

/-- The text of an attribute with what is behind it, cut into its key and its value. -/
theorem attributeText_append (e : String × Attribute) (cs : List Char) :
    attributeText e ++ cs = '(' :: (e.1.toList ++ ' ' :: (e.2.written.toList ++ ')' :: cs)) := by
  simp [attributeText]

/-- No attribute starts like a node. -/
theorem node_ne_attribute {name : String} (hname : IsWord name) (hcs : FollowsName cs)
    {e : String × Attribute} (he : IsWord e.1) (ds : List Char) :
    '(' :: (name.toList ++ cs) ≠ attributeText e ++ ds := by
  intro h
  rw [attributeText_append] at h
  obtain ⟨c, rest, rfl, hc⟩ := hcs.exists_end
  obtain ⟨-, rfl, rfl⟩ := Text.append_cons_inj hname hc he (by rfl) (List.cons.inj h).2
  rcases hcs with ⟨rest, heq⟩ | ⟨rest, heq⟩
  · cases heq
  · exact e.2.written_append_ne ds rest (List.cons.inj heq).2

/-- Children are not taken for attributes: a name in parentheses is followed by a parenthesis or a
second one, a key by a space and its value. -/
theorem nodes_ne_attribute (ht : t.EachNamed IsWord) {e : String × Attribute} (he : IsWord e.1)
    (ds : List Char) : nodesText t depth ids ++ ')' :: cs ≠ ' ' :: (attributeText e ++ ds) := by
  cases ids with
  | nil =>
    intro h
    cases h
  | cons id ids =>
    rw [nodesText, List.flatMap_cons, List.append_assoc, List.cons_append, outlineText_append]
    intro h
    refine node_ne_attribute (ht.name (fun c hc => nomatch hc) id) ?_ he ds (List.cons.inj h).2
    exact followsName_attributes _ (followsName_nodes t _ _ _)

/-- Attributes are read one by one, up to something that is no attribute. -/
theorem attributes_append_inj {values values' : Attributes} (hvalues : ∀ e ∈ values, IsWord e.1)
    (hvalues' : ∀ e ∈ values', IsWord e.1)
    (hcs : ∀ e : String × Attribute, IsWord e.1 → ∀ rest, cs ≠ ' ' :: (attributeText e ++ rest))
    (hds : ∀ e : String × Attribute, IsWord e.1 → ∀ rest, ds ≠ ' ' :: (attributeText e ++ rest))
    (h : attributesText values ++ cs = attributesText values' ++ ds) :
    List.Forall₂ (fun a b => a.1 = b.1 ∧ a.2.Alike b.2) values values' ∧ cs = ds := by
  have hcons (e : String × Attribute) (values : Attributes) (cs : List Char) :
      attributesText (e :: values) ++ cs =
        ' ' :: (attributeText e ++ (attributesText values ++ cs)) := by
    simp [attributesText]
  induction values generalizing values' with
  | nil =>
    cases values' with
    | nil => exact ⟨.nil, h⟩
    | cons e' values' =>
      rw [hcons] at h
      exact absurd h (hcs e' (hvalues' e' List.mem_cons_self) _)
  | cons e values ih =>
    obtain ⟨he, hvalues⟩ := List.forall_mem_cons.mp hvalues
    cases values' with
    | nil =>
      rw [hcons] at h
      exact absurd h.symm (hds e he _)
    | cons e' values' =>
      obtain ⟨he', hvalues'⟩ := List.forall_mem_cons.mp hvalues'
      rw [hcons, hcons, attributeText_append, attributeText_append] at h
      obtain ⟨hkey, -, hvalue⟩ := Text.append_cons_inj he (by rfl) he' (by rfl)
        (List.cons.inj (List.cons.inj h).2).2
      obtain ⟨halike, hrest⟩ := Attribute.written_append_inj hvalue
      obtain ⟨hbelow, heq⟩ := ih hvalues hvalues' hrest
      exact ⟨.cons ⟨String.toList_inj.mp hkey, halike⟩ hbelow, heq⟩

/-! ## Nodes -/

/-- Nodes are read one by one, up to the parenthesis behind them, if each is read alone. -/
theorem nodes_append_inj
    (hnode : ∀ id ∈ ids, ∀ {j : Nat} {cs ds : List Char},
      outlineText false depth (t.outlineAt id) ++ cs =
        outlineText false depth (u.outlineAt j) ++ ds → t.Resembles u id j ∧ cs = ds)
    (h : nodesText t depth ids ++ ')' :: cs = nodesText u depth js ++ ')' :: ds) :
    List.Forall₂ (t.Resembles u) ids js ∧ cs = ds := by
  have hcons (t : Tree) (id : Nat) (ids : List Nat) (cs : List Char) :
      nodesText t depth (id :: ids) ++ ')' :: cs = ' ' ::
        (outlineText false depth (t.outlineAt id) ++ (nodesText t depth ids ++ ')' :: cs)) := by
    simp [nodesText]
  induction ids generalizing js with
  | nil =>
    cases js with
    | nil => exact ⟨.nil, (List.cons.inj h).2⟩
    | cons j js =>
      rw [hcons] at h
      cases h
  | cons id ids ih =>
    cases js with
    | nil =>
      rw [hcons] at h
      cases h
    | cons j js =>
      obtain ⟨hid, hids⟩ := List.forall_mem_cons.mp hnode
      rw [hcons, hcons] at h
      obtain ⟨hresembles, hrest⟩ := hid (List.cons.inj h).2
      obtain ⟨hbelow, heq⟩ := ih hids hrest
      exact ⟨.cons hresembles hbelow, heq⟩

/-- A node on one line can be read in one way only, whatever comes behind it. -/
theorem outline_append_inj (ht : t.EachNamed IsWord) (hu : u.EachNamed IsWord) {i j : Nat}
    (h : outlineText false depth (t.outlineAt i) ++ cs =
      outlineText false depth (u.outlineAt j) ++ ds) : t.Resembles u i j ∧ cs = ds := by
  have hempty : IsWord "" := fun c hc => nomatch hc
  induction i using t.induction_children generalizing depth j cs ds with
  | h i ih =>
    rw [outlineText_append, outlineText_append] at h
    obtain ⟨hname, hbehind⟩ := name_append_inj (ht.name hempty i) (hu.name hempty j)
      (followsName_attributes _ (followsName_nodes t _ _ _))
      (followsName_attributes _ (followsName_nodes u _ _ _)) (List.cons.inj h).2
    obtain ⟨hattributes, hbelow⟩ := attributes_append_inj (fun e => ht.key) (fun e => hu.key)
      (fun e he => nodes_ne_attribute ht he) (fun e he => nodes_ne_attribute hu he) hbehind
    obtain ⟨hchildren, heq⟩ :=
      nodes_append_inj (fun c hc => ih c (Array.mem_toList_iff.mp hc)) hbelow
    exact ⟨.node hname hattributes hchildren, heq⟩

/-! ## Nodes that look alike -/

/-- Lists whose elements are printed alike are printed alike. -/
theorem flatMap_eq_of_forall₂ {α β : Type} {R : α → β → Prop} {f : α → List Char}
    {g : β → List Char} {xs : List α} {ys : List β} (hxs : List.Forall₂ R xs ys)
    (h : ∀ x ∈ xs, ∀ y, R x y → f x = g y) : xs.flatMap f = ys.flatMap g := by
  induction hxs with
  | nil => rfl
  | cons hxy _ ih =>
    obtain ⟨hx, hxs⟩ := List.forall_mem_cons.mp h
    rw [List.flatMap_cons, List.flatMap_cons, hx _ hxy, ih hxs]

/-- Nodes that resemble each other have the same text. -/
theorem outlineText_of_resembles {i j : Nat} (h : t.Resembles u i j) :
    outlineText false depth (t.outlineAt i) = outlineText false depth (u.outlineAt j) := by
  induction i using t.induction_children generalizing depth j with
  | h i ih =>
    obtain ⟨hname, hattributes, hchildren⟩ := h
    rw [outlineText_outlineAt, outlineText_outlineAt, hname]
    congr 2
    · congr 1
      refine flatMap_eq_of_forall₂ hattributes fun e _ e' he => ?_
      rw [attributeText, attributeText, he.1, he.2.written_eq]
    · refine flatMap_eq_of_forall₂ hchildren fun c hc c' hresembles => ?_
      rw [ih c (Array.mem_toList_iff.mp hc) hresembles]

end Sexp

namespace Tree

/-- A tree on one line can be read in one way only: trees whose names and keys are identifiers are
written alike on one line exactly if they look alike, whatever their nodes are numbered. -/
theorem line_eq_iff_resembles {t u : Tree} (ht : t.EachNamed (Text.isIdentifier ·.toList))
    (hu : u.EachNamed (Text.isIdentifier ·.toList)) :
    Sexp.line t.outline = Sexp.line u.outline ↔ t.Resembles u root root := by
  have hword (s : String) (hs : Text.isIdentifier s.toList) : Sexp.IsWord s :=
    fun _ hc => Text.continuesIdentifier_of_mem hs hc
  rw [← String.toList_inj, Sexp.toList_line, Sexp.toList_line]
  constructor
  · intro h
    have happend := congrArg (· ++ []) h
    exact (Sexp.outline_append_inj (ht.mono hword) (hu.mono hword) happend).1
  · exact Sexp.outlineText_of_resembles

/-- Nodes that were added in another order, and a constant of another type. -/
theorem line_eq_iff_resembles_renumbered :
    let t := ofCalls [.addChild 1 "f", .addChild 1 "g", .addChild 2 "v",
      .setAttribute 4 "Value" (.constant (.char 4))]
    let u := ofCalls [.addChild 1 "f", .addChild 2 "v",
      .setAttribute 3 "Value" (.constant (.int 4)), .addChild 1 "g"]
    t.EachNamed (Text.isIdentifier ·.toList) ∧ u.EachNamed (Text.isIdentifier ·.toList) ∧
      Sexp.line t.outline = "(Unit (Body (f (v (Value 4))) (g)))" ∧
      Sexp.line u.outline = "(Unit (Body (f (v (Value 4))) (g)))" ∧ t.Resembles u root root := by
  intro t u
  have ht : t.EachNamed (Text.isIdentifier ·.toList) := by
    unfold EachNamed
    decide +kernel
  have hu : u.EachNamed (Text.isIdentifier ·.toList) := by
    unfold EachNamed
    decide +kernel
  have htext : Sexp.line t.outline = "(Unit (Body (f (v (Value 4))) (g)))" := by decide +kernel
  have htext' : Sexp.line u.outline = "(Unit (Body (f (v (Value 4))) (g)))" := by decide +kernel
  exact ⟨ht, hu, htext, htext', (line_eq_iff_resembles ht hu).mp (htext.trans htext'.symm)⟩

end Tree

end SmallC
