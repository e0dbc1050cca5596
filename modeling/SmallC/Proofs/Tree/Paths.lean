import Mathlib.Data.List.Induction
import Mathlib.Data.List.Nodup
import SmallC.Proofs.Text.Pieces
import SmallC.Proofs.Tree.WellFormed

/-!
# Paths

The path of a node joins the names from the root down to the node with slashes. Following
names from the root and following parents from a node are inverse, as no two siblings have the
same name; so whatever is found by a text has that text as its path. A path is cut into the
names that it was joined of if they have no slashes, and then it leads to its node.
-/

namespace SmallC

namespace Tree

/-- The names from the root down to a node, which come from following its parents. -/
def namesTo (t : Tree) (id : Nat) : List String :=
  match t.parent? id with
  | none => [t.name id]
  | some p => if p < id then t.namesTo p ++ [t.name id] else [t.name id]
termination_by id

/-- The path of a node. -/
def path (t : Tree) (id : Nat) : String :=
  String.ofList (Text.joined '/' ((t.namesTo id).map String.toList))

/-- Following the path of a node leads to it, and nothing else does. -/
structure FoundByPath (t : Tree) : Prop where
  find?_path : ∀ id < t.size, t.find? (t.path id) = some id
  eq_path : ∀ (text : String) (id : Nat), t.find? text = some id → text = t.path id

/-- A call that gives no name with a slash. -/
def Call.HasNoSlash : Call → Prop
  | .addChild _ name => '/' ∉ name.toList
  | .setAttribute .. => True

variable {t t' : Tree} {id p c : Nat} {name text : String} {names : List String}

/-- The names to a node without a parent are its own. -/
theorem namesTo_of_none (h : t.parent? id = none) : t.namesTo id = [t.name id] := by
  rw [namesTo, h]

/-- The names to a node are those to its parent and its own. -/
theorem namesTo_of_parent (h : t.parent? id = some p) (hlt : p < id) :
    t.namesTo id = t.namesTo p ++ [t.name id] := by
  rw [namesTo, h]
  exact if_pos hlt

/-- There is always a name to a node. -/
theorem namesTo_ne_nil (t : Tree) (id : Nat) : t.namesTo id ≠ [] := by
  rw [namesTo]
  split
  · exact List.cons_ne_nil _ _
  · split <;> simp

/-- The names on the way to a node are names of nodes. -/
theorem exists_name_of_mem_namesTo (h : name ∈ t.namesTo id) : ∃ i, t.name i = name := by
  induction id using Nat.strongRecOn with
  | ind id ih =>
    rw [namesTo] at h
    split at h
    · exact ⟨id, (List.mem_singleton.mp h).symm⟩
    · rename_i p hparent
      split at h
      · rename_i hlt
        rcases List.mem_append.mp h with h | h
        · exact ih p hlt h
        · exact ⟨id, (List.mem_singleton.mp h).symm⟩
      · exact ⟨id, (List.mem_singleton.mp h).symm⟩

/-! ## Following names -/

/-- A text is found by following its pieces from the root. -/
theorem find?_eq_some_iff : t.find? text = some id ↔
    ∃ names, (Text.pieces '/' text.toList).map String.ofList = t.name root :: names ∧
      names.foldlM t.child? root = some id := by
  rw [find?]
  cases Text.pieces '/' text.toList with
  | nil => simp
  | cons first rest =>
    by_cases hroot : String.ofList first = t.name root
    · simp [hroot, List.foldlM_map]
    · simp [hroot]

namespace WellFormed

/-- The parent of a child is the node that has it, and comes before it. -/
theorem parent?_of_mem_children (ht : t.WellFormed) (hc : c ∈ t.children p) :
    t.parent? c = some p ∧ p < c ∧ c < t.size :=
  ⟨(ht.mem_children_iff p c).mp hc, (lt_of_mem_children hc).1, ht.lt_size hc⟩

/-- There is only one child of a name. -/
theorem child?_eq_some_iff (ht : t.WellFormed) :
    t.child? p name = some c ↔ c ∈ t.children p ∧ t.name c = name := by
  have hfound {d : Nat} (h : t.child? p name = some d) : d ∈ t.children p ∧ t.name d = name := by
    rw [child?] at h
    exact ⟨Array.mem_of_find?_eq_some h, by simpa using Array.find?_some h⟩
  refine ⟨hfound, ?_⟩
  rintro ⟨hc, hname⟩
  have hsome : (t.child? p name).isSome :=
    Array.find?_isSome.mpr ⟨c, hc, decide_eq_true hname⟩
  obtain ⟨d, hd⟩ := Option.isSome_iff_exists.mp hsome
  obtain ⟨hdmem, hdname⟩ := hfound hd
  obtain rfl : d = c := List.inj_on_of_nodup_map (ht.names p)
    (Array.mem_toList_iff.mpr hdmem) (Array.mem_toList_iff.mpr hc) (hdname.trans hname.symm)
  exact hd

/-- The names to the root are its own. -/
theorem namesTo_root (ht : t.WellFormed) : t.namesTo Tree.root = [t.name Tree.root] :=
  namesTo_of_none ht.root

/-- The last name on the way to a node other than the root leads from its parent to it. -/
theorem namesTo_eq_append_iff (ht : t.WellFormed) (hne : names ≠ []) (hid : id < t.size) :
    t.namesTo id = names ++ [name] ↔
      ∃ p < t.size, t.namesTo p = names ∧ id ∈ t.children p ∧ t.name id = name := by
  constructor
  · intro h
    have hroot : id ≠ Tree.root := by
      rintro rfl
      rw [ht.namesTo_root] at h
      have happend : [] ++ [t.name Tree.root] = names ++ [name] := h
      exact hne (List.append_inj' happend rfl).1.symm
    obtain ⟨p, hp, hparent⟩ := ht.parent id hid hroot
    rw [namesTo_of_parent hparent hp] at h
    obtain ⟨hnames, hname⟩ := List.append_inj' h rfl
    exact ⟨p, Nat.lt_trans hp hid, hnames, (ht.mem_children_iff p id).mpr hparent,
      List.singleton_inj.mp hname⟩
  · rintro ⟨p, -, rfl, hchild, rfl⟩
    obtain ⟨hparent, hp, -⟩ := ht.parent?_of_mem_children hchild
    exact namesTo_of_parent hparent hp

/-- Following names from the root leads to the node to which these are the names. -/
theorem foldlM_child?_eq_some_iff (ht : t.WellFormed) :
    names.foldlM t.child? Tree.root = some id ↔
      id < t.size ∧ t.namesTo id = t.name Tree.root :: names := by
  induction names using List.reverseRecOn generalizing id with
  | nil =>
    simp only [List.foldlM_nil, Option.pure_def, Option.some.injEq]
    constructor
    · rintro rfl
      exact ⟨ht.nonempty, ht.namesTo_root⟩
    · rintro ⟨hid, hnames⟩
      refine Classical.byContradiction fun hroot => ?_
      obtain ⟨p, hp, hparent⟩ := ht.parent id hid (Ne.symm hroot)
      rw [namesTo_of_parent hparent hp] at hnames
      have hlength := congrArg List.length hnames
      rw [List.length_append, List.length_singleton, List.length_singleton] at hlength
      exact t.namesTo_ne_nil p (List.length_eq_zero_iff.mp (by omega))
  | append_singleton names name ih =>
    have hlast (p : Nat) : [name].foldlM t.child? p = t.child? p name := by simp
    rw [List.foldlM_append, Option.bind_eq_bind, Option.bind_eq_some_iff, ← List.cons_append]
    simp only [hlast, ih, ht.child?_eq_some_iff]
    constructor
    · rintro ⟨p, ⟨hp, hnames⟩, hchild, hname⟩
      have hid := ht.lt_size hchild
      exact ⟨hid, (ht.namesTo_eq_append_iff (List.cons_ne_nil _ _) hid).mpr
        ⟨p, hp, hnames, hchild, hname⟩⟩
    · rintro ⟨hid, h⟩
      obtain ⟨p, hp, hnames, hchild, hname⟩ :=
        (ht.namesTo_eq_append_iff (List.cons_ne_nil _ _) hid).mp h
      exact ⟨p, ⟨hp, hnames⟩, hchild, hname⟩

/-- The way to a node starts at the root. -/
theorem exists_namesTo_eq_cons (ht : t.WellFormed) (hid : id < t.size) :
    ∃ names, t.namesTo id = t.name Tree.root :: names := by
  induction id using Nat.strongRecOn with
  | ind id ih =>
    by_cases hroot : id = Tree.root
    · exact ⟨[], hroot ▸ ht.namesTo_root⟩
    · obtain ⟨p, hp, hparent⟩ := ht.parent id hid hroot
      obtain ⟨names, hnames⟩ := ih p hp (Nat.lt_trans hp hid)
      exact ⟨names ++ [t.name id], by rw [namesTo_of_parent hparent hp, hnames]; rfl⟩

/-- A text is found at the node to which its pieces are the names. -/
theorem find?_eq_some_iff (ht : t.WellFormed) : t.find? text = some id ↔
    id < t.size ∧ (Text.pieces '/' text.toList).map String.ofList = t.namesTo id := by
  rw [Tree.find?_eq_some_iff]
  simp only [ht.foldlM_child?_eq_some_iff]
  constructor
  · rintro ⟨names, hpieces, hid, hnames⟩
    exact ⟨hid, hpieces.trans hnames.symm⟩
  · rintro ⟨hid, hpieces⟩
    obtain ⟨names, hnames⟩ := ht.exists_namesTo_eq_cons hid
    exact ⟨names, hpieces.trans hnames, hid, hnames⟩

/-- Where names have no slashes, paths lead back. -/
theorem foundByPath (ht : t.WellFormed) (hnames : ∀ id, '/' ∉ (t.name id).toList) :
    t.FoundByPath := by
  constructor
  case find?_path =>
    intro id hid
    have hpieces : Text.pieces '/' (t.path id).toList = (t.namesTo id).map String.toList := by
      rw [path, String.toList_ofList]
      refine Text.pieces_joined (by simpa using t.namesTo_ne_nil id) fun p hp => ?_
      obtain ⟨name, hname, rfl⟩ := List.mem_map.mp hp
      obtain ⟨i, rfl⟩ := exists_name_of_mem_namesTo hname
      exact hnames i
    refine ht.find?_eq_some_iff.mpr ⟨hid, ?_⟩
    rw [hpieces, List.map_map]
    exact List.map_id'' (fun _ => String.ofList_toList) _
  case eq_path =>
    intro text id hfind
    obtain ⟨-, hpieces⟩ := ht.find?_eq_some_iff.mp hfind
    have hsame (ps : List (List Char)) : (ps.map String.ofList).map String.toList = ps := by
      rw [List.map_map]
      exact List.map_id'' (fun _ => String.toList_ofList) ps
    rw [path, ← hpieces, hsame, Text.joined_pieces, String.ofList_toList]

end WellFormed

/-! ## Names without slashes -/

/-- Calls that give no name with a slash keep the names without slashes. -/
theorem not_mem_name_afterAll {calls : List Call} (hcalls : ∀ call ∈ calls, call.HasNoSlash)
    (hnames : ∀ id, '/' ∉ (t.name id).toList) :
    ∀ id, '/' ∉ ((t.afterAll calls).name id).toList := by
  induction calls generalizing t with
  | nil => exact hnames
  | cons call calls ih =>
    obtain ⟨hcall, hcalls⟩ := List.forall_mem_cons.mp hcalls
    refine ih hcalls fun id => ?_
    cases call with
    | setAttribute node key value =>
      rw [after, name_setAttribute]
      exact hnames id
    | addChild parent name =>
      rw [after]
      cases hadd : t.addChild parent name with
      | none => exact hnames id
      | some r =>
        rw [Option.map_some, Option.getD_some, name_of_addChild hadd]
        by_cases hlast : id = t.size
        · rw [if_pos hlast]
          exact hcall
        · rw [if_neg hlast]
          exact hnames id

/-- The names in the empty tree have no slash. -/
theorem not_mem_name_empty (id : Nat) : '/' ∉ (empty.name id).toList := by
  match id with
  | 0 => decide
  | 1 => decide
  | id + 2 => simp [name, node?, empty]

/-- In a tree that is built by calls without slashes, paths find their nodes. -/
theorem foundByPath_ofCalls {calls : List Call} (hcalls : ∀ call ∈ calls, call.HasNoSlash) :
    (ofCalls calls).FoundByPath :=
  (wellFormed_ofCalls calls).foundByPath (not_mem_name_afterAll hcalls not_mem_name_empty)

end Tree

end SmallC
