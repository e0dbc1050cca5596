import SmallC.Proofs.Parse.Agreement

/-!
# The functions around a body

A body is below the node of its function, which is in the body around it, and so on up to
the body of the unit. No node is a body and a function at the same time, so that the way up
from a body meets bodies and functions in turn.
-/

namespace SmallC

open Outline

namespace Tree

/-- The nodes of functions on the way from a node up to the root, from the inside to the
outside. -/
inductive EnclosedBy (t : Tree) : Nat → List Nat → Prop
  | root {id : Nat} : t.parent? id = none → (∀ arguments body, ¬ t.IsFunction id arguments body) →
    t.EnclosedBy id []
  | function {id parent arguments body : Nat} {functions : List Nat} :
    t.IsFunction id arguments body → t.parent? id = some parent → t.EnclosedBy parent functions →
    t.EnclosedBy id (id :: functions)
  | other {id parent : Nat} {functions : List Nat} :
    (∀ arguments body, ¬ t.IsFunction id arguments body) → t.parent? id = some parent →
    t.EnclosedBy parent functions → t.EnclosedBy id functions

variable {t : Tree} {parent start id body node arguments : Nat} {p : Program}

/-! ## Parents -/

/-- The parent of nodes that are shown below a node is that node. -/
theorem parent?_of_mem_numbers {os : List Outline} (h : t.ShowsBelow parent start os)
    (hid : id ∈ numbers start os) : t.parent? id = some parent := by
  induction os generalizing start with
  | nil => cases hid
  | cons o os ih =>
    obtain ⟨name, attributes, children⟩ := o
    obtain ⟨⟨hnode, -⟩, hbelow⟩ := h
    rcases List.mem_cons.mp hid with rfl | hid
    · exact parent?_of_node hnode
    · exact ih hbelow hid

/-- What is in a body has the body as its parent. -/
theorem IsBody.parent?_of_mem (hp : t.nodes.toList = p.outline.nodes none 0)
    (hbody : t.IsBody body) (hid : id ∈ t.children body) : t.parent? id = some body := by
  obtain ⟨q, hchildren, hq, -⟩ := hbody.exists_program hp
  rw [hchildren, List.mem_toArray] at hid
  exact parent?_of_mem_numbers hq hid

/-- The body of a function has the function as its parent. -/
theorem IsFunction.parent?_body (hp : t.nodes.toList = p.outline.nodes none 0)
    (h : t.IsFunction node arguments body) : t.parent? body = some node := by
  obtain ⟨hparts, outer, houter, hnode⟩ := h
  obtain ⟨q, hchildren, hq, -⟩ := houter.exists_program hp
  rw [hchildren, List.mem_toArray] at hnode
  obtain ⟨h, inner, hholds, -⟩ := exists_definition_of_hasParts hq hnode hparts
  obtain ⟨-, rfl⟩ := hparts.unique hholds.hasParts
  exact parent?_of_node hholds.body

/-- The unit has no parent. -/
theorem parent?_root (hp : t.nodes.toList = p.outline.nodes none 0) : t.parent? root = none :=
  parent?_of_node (shows_root hp).1

/-- The body of the unit is below the unit. -/
theorem parent?_unitBody (hp : t.nodes.toList = p.outline.nodes none 0) :
    t.parent? unitBody = some root :=
  parent?_of_node (shows_root hp).2.1.1

/-! ## Bodies are no functions -/

/-- The root is nowhere below a function, and so it is no body. -/
theorem not_isBody_root : ¬ t.IsBody root := by
  intro h
  generalize hid : root = id at h
  cases h with
  | unit => cases hid
  | @function outer node arguments _ _ _ hparts =>
    subst hid
    have hchildren := hparts.children
    unfold children at hchildren
    cases hn : t.node? node with
    | none => simp [hn] at hchildren
    | some n =>
      rw [hn] at hchildren
      have hmem : root ∈ n.children := by
        rw [show n.children = #[arguments, root] from hchildren]
        simp
      exact absurd (t.ascending node n hn root hmem) (Nat.not_lt_zero node)

/-- The unit is no function. -/
theorem not_isFunction_root (hp : t.nodes.toList = p.outline.nodes none 0) :
    ¬ t.IsFunction root arguments body := by
  rintro ⟨-, outer, houter, hmem⟩
  have hparent := houter.parent?_of_mem hp hmem
  rw [parent?_root hp] at hparent
  cases hparent

/-- No body is a function. If one were, then its own function would be a body, and the body
around that a function. -/
theorem IsBody.not_isFunction (hp : t.nodes.toList = p.outline.nodes none 0)
    (hbody : t.IsBody body) (arguments inner : Nat) : ¬ t.IsFunction body arguments inner := by
  induction hbody generalizing arguments inner with
  | unit =>
    rintro ⟨-, outer, houter, hmem⟩
    have hparent := houter.parent?_of_mem hp hmem
    rw [parent?_unitBody hp] at hparent
    cases hparent
    exact not_isBody_root houter
  | @function outer node list body houter hnode hparts ih =>
    rintro ⟨-, outer', houter', hmem⟩
    have hbody := houter'.parent?_of_mem hp hmem
    rw [IsFunction.parent?_body hp ⟨hparts, outer, houter, hnode⟩] at hbody
    obtain rfl : node = outer' := Option.some.inj hbody
    have hparent := houter.parent?_of_mem hp hnode
    cases houter' with
    | unit =>
      rw [parent?_unitBody hp] at hparent
      cases hparent
      exact not_isBody_root houter
    | @function outer₂ node₂ list₂ _ houter₂ hnode₂ hparts₂ =>
      have hfunction : t.IsFunction node₂ list₂ node := ⟨hparts₂, outer₂, houter₂, hnode₂⟩
      rw [hfunction.parent?_body hp] at hparent
      obtain rfl : node₂ = outer := Option.some.inj hparent
      exact ih _ _ hfunction

/-- The body of a function is a body. -/
theorem IsFunction.isBody (h : t.IsFunction node arguments body) : t.IsBody body := by
  obtain ⟨hparts, outer, houter, hnode⟩ := h
  exact .function houter hnode hparts

/-! ## Going up -/

/-- There is no function around the body of the unit. -/
theorem enclosedBy_unitBody (hp : t.nodes.toList = p.outline.nodes none 0) :
    t.EnclosedBy unitBody [] := by
  have hroot : t.EnclosedBy root [] :=
    .root (parent?_root hp) fun _ _ => not_isFunction_root hp
  exact .other (IsBody.unit.not_isFunction hp) (parent?_unitBody hp) hroot

/-- The body of a function is in the function and in those around it. -/
theorem EnclosedBy.inside {outer : Nat} {functions : List Nat}
    (hp : t.nodes.toList = p.outline.nodes none 0) (houter : t.EnclosedBy outer functions)
    (h : t.IsFunction node arguments body) (hparent : t.parent? node = some outer) :
    t.EnclosedBy body (node :: functions) :=
  .other (h.isBody.not_isFunction hp) (h.parent?_body hp) (.function h hparent houter)

end Tree

end SmallC
