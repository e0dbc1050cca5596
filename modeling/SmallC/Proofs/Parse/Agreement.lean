import SmallC.Proofs.Parse.FunctionNodes
import SmallC.Proofs.Parse.Growth

/-!
# Agreement of functions and nodes

The list of functions and the tree are kept side by side. Whatever is declared, and whatever
is refused, each function with a body has its nodes in the tree, and the tree has no other
nodes of functions.
-/

namespace SmallC

open Outline

/-! ## Names -/

namespace Function

variable {f g : Function} {fs table : List Function} {names : List String}

/-- Placing a function does not give its name to a second one. -/
theorem nodup_map_name_place (h : (table.map (·.name)).Nodup) :
    ((f.place table).map (·.name)).Nodup := by
  rw [map_name_place]
  by_cases hf : f.name ∈ table.map (·.name)
  · rwa [if_pos hf]
  · rw [if_neg hf, List.nodup_append]
    refine ⟨h, List.pairwise_singleton _ _, fun name hname other hother => ?_⟩
    obtain rfl := List.mem_singleton.mp hother
    exact fun heq => hf (heq ▸ hname)

/-- Placing functions one after the other does not either. -/
theorem nodup_map_name_foldl_place (h : (table.map (·.name)).Nodup) :
    ((fs.foldl (fun table f => f.place table) table).map (·.name)).Nodup := by
  induction fs generalizing table with
  | nil => exact h
  | cons f fs ih => exact ih (nodup_map_name_place h)

/-- A name that is added counts if it has not come before. -/
theorem eraseDups_append_singleton (names : List String) (name : String) :
    (names ++ [name]).eraseDups =
      if name ∈ names then names.eraseDups else names.eraseDups ++ [name] := by
  rw [List.eraseDups_append]
  by_cases h : name ∈ names <;> simp [List.removeAll, List.eraseDups_cons, h]

/-- Each name is in the place in which it came first. -/
theorem map_name_foldl_place (h : table.map (·.name) = names.eraseDups) :
    (fs.foldl (fun table f => f.place table) table).map (·.name) =
      (names ++ fs.map (·.name)).eraseDups := by
  induction fs generalizing table names with
  | nil => simpa using h
  | cons f fs ih =>
    have hplace : (f.place table).map (·.name) = (names ++ [f.name]).eraseDups := by
      rw [map_name_place, eraseDups_append_singleton, h]
      simp only [List.mem_eraseDups]
    rw [List.foldl_cons, ih hplace, List.map_cons, List.append_assoc, List.singleton_append]

/-! ## Bodies -/

/-- Whatever is in the table was there or was placed. -/
theorem mem_of_mem_place (h : g ∈ f.place table) : g = f ∨ g ∈ table := by
  induction table with
  | nil => exact .inl (List.mem_singleton.mp h)
  | cons k table ih =>
    rw [place] at h
    by_cases hk : k.name = f.name
    · rw [if_pos hk] at h
      exact (List.mem_cons.mp h).imp_right (List.mem_cons_of_mem k)
    · rw [if_neg hk] at h
      rcases List.mem_cons.mp h with rfl | h
      · exact .inr List.mem_cons_self
      · exact (ih h).imp_right (List.mem_cons_of_mem k)

/-- Whatever is in the table at the end was there at the start or was placed. -/
theorem mem_of_mem_foldl_place (h : g ∈ fs.foldl (fun table f => f.place table) table) :
    g ∈ fs ∨ g ∈ table := by
  induction fs generalizing table with
  | nil => exact .inr h
  | cons f fs ih =>
    rcases ih h with h | h
    · exact .inl (List.mem_cons_of_mem f h)
    · rcases mem_of_mem_place h with rfl | h
      · exact .inl List.mem_cons_self
      · exact .inr h

/-- The function that is placed is in the table. -/
theorem mem_place_self (f : Function) (table : List Function) : f ∈ f.place table := by
  induction table with
  | nil => exact List.mem_cons_self
  | cons g table ih =>
    rw [place]
    by_cases hg : g.name = f.name
    · rw [if_pos hg]
      exact List.mem_cons_self
    · rw [if_neg hg]
      exact List.mem_cons_of_mem g ih

/-- A function with a body stays in the table as it is. -/
theorem mem_foldl_place_of_mem (hfs : Admits table fs) (hf : f ∈ table) (hbody : f.body.isSome) :
    f ∈ fs.foldl (fun table f => f.place table) table := by
  obtain ⟨i, hi⟩ := List.mem_iff_getElem?.mp hf
  obtain ⟨g, hg, rfl | ⟨-, hnone, -⟩⟩ := exists_getElem?_foldl_place hfs hi
  · exact List.mem_of_getElem? hg
  · rw [hnone] at hbody
    cases hbody

/-- A function that is declared with a body is in the table from then on. -/
theorem mem_foldl_place (hfs : Admits table fs) (hf : f ∈ fs) (hbody : f.body.isSome) :
    f ∈ fs.foldl (fun table f => f.place table) table := by
  induction fs generalizing table with
  | nil => cases hf
  | cons g fs ih =>
    rw [List.foldl_cons]
    rcases List.mem_cons.mp hf with rfl | hf
    · exact mem_foldl_place_of_mem hfs.2 (mem_place_self f table) hbody
    · exact ih hfs.2 hf

/-- A name is found in the place in which it was, or behind all others if it is new. -/
theorem findIdx?_place (f : Function) (table : List Function) (name : String) :
    (f.place table).findIdx? (·.name = name) =
      if f.name = name ∧ table.findIdx? (·.name = name) = none then some table.length
      else table.findIdx? (·.name = name) := by
  have hnames (table : List Function) :
      table.findIdx? (·.name = name) = (table.map (·.name)).findIdx? (· = name) := by
    rw [List.findIdx?_map]
    rfl
  rw [hnames, hnames, map_name_place, ← List.length_map (f := (·.name))]
  generalize table.map (·.name) = names
  by_cases hf : f.name ∈ names
  · rw [if_pos hf, if_neg]
    rintro ⟨rfl, hnone⟩
    exact of_decide_eq_false (List.findIdx?_eq_none_iff.mp hnone f.name hf) rfl
  · rw [if_neg hf, List.findIdx?_append, List.findIdx?_cons]
    by_cases hname : f.name = name
    · have hnone : names.findIdx? (· = name) = none := by
        refine List.findIdx?_eq_none_iff.mpr fun other hother => decide_eq_false fun heq => hf ?_
        rwa [hname, ← heq]
      simp [hname, hnone]
    · simp [hname]

end Function

/-! ## The functions of a program -/

namespace Program

variable {p : Program} {f : Function}

/-- No two functions of a program have the same name. -/
theorem nodup_map_name_functions (p : Program) : (p.functions.map (·.name)).Nodup :=
  Function.nodup_map_name_foldl_place List.nodup_nil

/-- Whatever is in the table of a program was declared by it. -/
theorem mem_declared_of_mem_functions (hf : f ∈ p.functions) : f ∈ p.declared 2 :=
  (Function.mem_of_mem_foldl_place hf).resolve_right List.not_mem_nil

/-- A function that is declared with a body stays in the table to the end: nothing may replace
it. -/
theorem Lawful.mem_functions (hp : p.Lawful) (hf : f ∈ p.declared 2) (hbody : f.body.isSome) :
    f ∈ p.functions :=
  Function.mem_foldl_place (Function.admits_nil_iff.mpr hp.functions) hf hbody

/-- The parameters of each function have names of their own. -/
theorem FreshParameters.nodup_parameters {visible : List String} {next : Nat}
    (h : p.FreshParameters visible) : ∀ f ∈ p.declared next, (f.parameters.map (·.1)).Nodup := by
  have hnames (header : FunctionHeader) :
      (Function.ofHeader header).parameters.map (·.1) = header.parameterNames := by
    simp [Function.ofHeader, FunctionHeader.parameterNames]
  induction p generalizing visible next with
  | empty =>
    intro f hf
    cases hf
  | «variable» type name initializer rest ih => exact ih h
  | prototype header rest ih =>
    obtain ⟨⟨hnodup, -⟩, hrest⟩ := h
    exact List.forall_mem_cons.mpr ⟨(hnames header).symm ▸ hnodup, ih hrest⟩
  | definition header body rest ihbody ih =>
    obtain ⟨⟨hnodup, -⟩, hbody, hrest⟩ := h
    exact List.forall_mem_append.mpr
      ⟨List.forall_mem_cons.mpr ⟨(hnames header).symm ▸ hnodup, ihbody hbody⟩, ih hrest⟩
  | assembly sources rest ih => exact ih h

end Program

/-! ## Agreement -/

/-- The functions of a list and those of a tree are the same. -/
structure Tree.Agrees (t : Tree) (functions : Array Function) : Prop where
  /-- No two functions have the same name. -/
  names : (functions.toList.map (·.name)).Nodup
  /-- No two parameters of a function have the same name. -/
  parameters : ∀ f ∈ functions, (f.parameters.map (·.1)).Nodup
  /-- A function with a body has its nodes. -/
  described : ∀ f ∈ functions, ∀ body ∈ f.body, ∃ node arguments, t.Describes node arguments body f
  /-- No two functions have the same body. -/
  bodies : ∀ (i j : Nat) (f g : Function) (body : Nat), functions[i]? = some f →
    functions[j]? = some g → f.body = some body → g.body = some body → i = j
  /-- The nodes of a function are those of exactly one function of the list. -/
  listed : ∀ node arguments body, t.IsFunction node arguments body →
    ∃ (i : Nat) (f : Function), functions[i]? = some f ∧ f.body = some body ∧
      f.name = t.name node ∧ ∀ (j : Nat) (g : Function), functions[j]? = some g →
        g.body = some body ∨ g.name = t.name node → j = i
  /-- A function without a body has no nodes. -/
  undefined : ∀ f ∈ functions, f.body = none →
    ∀ node arguments body, t.IsFunction node arguments body → t.name node ≠ f.name

section

variable {t : Tree} {functions : Array Function} {p : Program} {f g : Function} {i j : Nat}

/-- A function is found by its name. -/
theorem index_eq_of_name_eq (h : (functions.toList.map (·.name)).Nodup)
    (hf : functions[i]? = some f) (hg : functions[j]? = some g) (hname : f.name = g.name) :
    i = j := by
  have hi : (functions.toList.map (·.name))[i]? = some f.name := by simp [hf]
  have hj : (functions.toList.map (·.name))[j]? = some f.name := by simp [hg, hname]
  exact (List.getElem?_inj (List.getElem?_eq_some_iff.mp hi).1 h).mp (hi.trans hj.symm)

/-- A program that obeys the rules describes functions and a tree that agree. -/
theorem agrees_of_lawful (hp : p.Lawful) (htree : t.nodes.toList = p.outline.nodes none 0)
    (hfunctions : functions.toList = p.functions) : t.Agrees functions := by
  have hnames : (functions.toList.map (·.name)).Nodup := by
    rw [hfunctions]
    exact p.nodup_map_name_functions
  have hmem (f : Function) : f ∈ functions ↔ f ∈ p.functions := by
    rw [← Array.mem_toList_iff, hfunctions]
  have hdeclared (f : Function) (hf : f ∈ functions) : f ∈ p.declared 2 :=
    Program.mem_declared_of_mem_functions ((hmem f).mp hf)
  have hdescribed (f : Function) (hf : f ∈ functions) (body : Nat) (hbody : f.body = some body) :
      ∃ node arguments, t.Describes node arguments body f :=
    Tree.exists_describes_of_mem_declared htree (hdeclared f hf) hbody
  -- what has the same body has the same name, and by its name a function has one place
  have hname (f g : Function) (body : Nat) (hf : f ∈ functions) (hg : g ∈ functions)
      (hfbody : f.body = some body) (hgbody : g.body = some body) : f.name = g.name := by
    obtain ⟨_, _, hdf⟩ := hdescribed f hf body hfbody
    obtain ⟨_, _, hdg⟩ := hdescribed g hg body hgbody
    exact hdf.name_eq hdg
  have hlisted (node arguments body : Nat) (h : t.IsFunction node arguments body) :
      ∃ (i : Nat) (f : Function), functions[i]? = some f ∧ f.body = some body ∧
        f.name = t.name node := by
    obtain ⟨f, hf, hbody, hfname⟩ := h.exists_declared htree
    have hf' : f ∈ functions := (hmem f).mpr (hp.mem_functions hf (by simp [hbody]))
    obtain ⟨i, hi⟩ := Array.mem_iff_getElem?.mp hf'
    exact ⟨i, f, hi, hbody, hfname⟩
  constructor
  case names => exact hnames
  case parameters => exact fun f hf => hp.parameters.nodup_parameters f (hdeclared f hf)
  case described => exact hdescribed
  case bodies =>
    intro i j f g body hf hg hfbody hgbody
    refine index_eq_of_name_eq hnames hf hg ?_
    exact hname f g body (Array.mem_of_getElem? hf) (Array.mem_of_getElem? hg) hfbody hgbody
  case listed =>
    intro node arguments body h
    obtain ⟨i, f, hf, hbody, hfname⟩ := hlisted node arguments body h
    refine ⟨i, f, hf, hbody, hfname, fun j g hg hor => index_eq_of_name_eq hnames hg hf ?_⟩
    rcases hor with hgbody | hgname
    · exact hname g f body (Array.mem_of_getElem? hg) (Array.mem_of_getElem? hf) hgbody hbody
    · exact hgname.trans hfname.symm
  case undefined =>
    intro f hf hnone node arguments body h heq
    obtain ⟨i, g, hg, hbody, hgname⟩ := hlisted node arguments body h
    obtain ⟨j, hj⟩ := Array.mem_iff_getElem?.mp hf
    obtain rfl := index_eq_of_name_eq hnames hg hj (hgname.trans heq)
    obtain rfl : g = f := Option.some.inj (hg.symm.trans hj)
    rw [hnone] at hbody
    cases hbody

end

/-! ## The order of functions -/

/-- The name of the function that is declared, if one is. -/
def Declaration.functionName? : Declaration → Option String
  | .prototype h | .definition h => some h.name.lexeme
  | .variable _ _ _ | .assembly _ | .close _ => none

/-- A declaration declares a function of its own name, if any. -/
theorem Declaration.map_name_declared (d : Declaration) (next : Nat) :
    (d.declared next).map (·.name) = d.functionName?.toList := by
  cases d <;> rfl

/-- A declaration changes the places of functions as it would change a map from names to places
that is kept beside the list: a new name is entered with the number of functions so far, and no
other name gets, loses or changes its place. -/
theorem Environment.functionIndex?_of_takes {e e' : Environment} {d : Declaration}
    (he : e.Valid) (h : e.Takes d e') (name : String) :
    e'.functionIndex? name =
      if d.functionName? = some name ∧ e.functionIndex? name = none then some e.functions.size
      else e.functionIndex? name := by
  obtain ⟨-, hfunctions⟩ := functions_of_takes he h
  rw [functionIndex?_eq, functionIndex?_eq, hfunctions, ← Array.length_toList]
  generalize e.functions.toList = table
  have hentered (f : Function) : (f.place table).findIdx? (·.name = name) =
      if some f.name = some name ∧ table.findIdx? (·.name = name) = none then some table.length
      else table.findIdx? (·.name = name) := by
    simp only [Function.findIdx?_place, Option.some.injEq]
  cases d with
  | prototype header => exact hentered (.ofHeader header)
  | definition header => exact hentered (.ofDefinition header _)
  | «variable» type token initializer => simp [Declaration.declared, Declaration.functionName?]
  | assembly sources => simp [Declaration.declared, Declaration.functionName?]
  | close brace => simp [Declaration.declared, Declaration.functionName?]

/-- There is one function more if a new name is declared. -/
theorem Environment.size_functions_of_takes {e e' : Environment} {d : Declaration}
    (he : e.Valid) (h : e.Takes d e') :
    e'.functions.size =
      if d.functionName?.any (fun name => (e.functionIndex? name).isNone) then e.functions.size + 1
      else e.functions.size := by
  obtain ⟨-, hfunctions⟩ := functions_of_takes he h
  rw [← Array.length_toList, ← Array.length_toList, hfunctions]
  have hentered (f : Function) : (f.place e.functions.toList).length =
      if (e.functionIndex? f.name).isNone then e.functions.toList.length + 1
      else e.functions.toList.length := by
    rw [Function.place_eq, functionIndex?_eq]
    cases e.functions.toList.findIdx? (·.name = f.name) <;> simp
  cases d with
  | prototype header => exact hentered (.ofHeader header)
  | definition header => exact hentered (.ofDefinition header _)
  | «variable» type token initializer => rfl
  | assembly sources => rfl
  | close brace => rfl

/-- A function that is declared comes last, if its name is new. -/
theorem Environment.names_of_takes {e e' : Environment} {d : Declaration} {names : List String}
    (he : e.Valid) (h : e.Takes d e')
    (hnames : e.functions.toList.map (·.name) = names.eraseDups) :
    e'.functions.toList.map (·.name) = (names ++ d.functionName?.toList).eraseDups := by
  obtain ⟨-, hfunctions⟩ := functions_of_takes he h
  rw [hfunctions, Function.map_name_foldl_place hnames, d.map_name_declared]

namespace Parse

variable {tokens rest : List Token} {entered : List Declaration} {e : Environment}

/-- At every moment of a parse the functions and the tree agree. -/
theorem Reaches.agrees (h : Reaches tokens entered e rest) : e.tree.Agrees e.functions := by
  obtain ⟨p, hp, htree, hfunctions⟩ := Environment.exists_lawful_of_enters h.enters
  exact agrees_of_lawful hp htree hfunctions

/-- Functions come in the order of their first declarations. -/
theorem Reaches.names (h : Reaches tokens entered e rest) :
    e.functions.toList.map (·.name) =
      (entered.filterMap Declaration.functionName?).eraseDups := by
  induction h with
  | start => rfl
  | @entered entered e e' t d ts mid rest hreach _ henter ih =>
    obtain ⟨htakes, -⟩ := Environment.enter_eq_ok_iff.mp henter
    have hlast : [d].filterMap Declaration.functionName? = d.functionName?.toList := by
      cases d <;> rfl
    rw [Environment.names_of_takes hreach.valid htakes ih, List.filterMap_append, hlast]
  | refused _ _ ih => exact ih

/-- A map from the names of functions to their places in the list, after one more declaration: a
name that is not in the map is entered with the number of those that are. -/
def enterPlace (places : List (String × Nat)) (d : Declaration) : List (String × Nat) :=
  match d.functionName? with
  | none => places
  | some name =>
    if (places.lookup name).isSome then places else (name, places.length) :: places

/-- A name that is entered into a map of places is found there, and nothing else changes. -/
theorem lookup_enterPlace (places : List (String × Nat)) (d : Declaration) (name : String) :
    (enterPlace places d).lookup name =
      if d.functionName? = some name ∧ places.lookup name = none then some places.length
      else places.lookup name := by
  rw [enterPlace]
  cases d.functionName? with
  | none => simp
  | some new =>
    by_cases hname : new = name
    · subst hname
      cases hplace : places.lookup new <;> simp [hplace]
    · cases hplace : places.lookup new <;>
        simp [hplace, hname, List.lookup_cons, beq_false_of_ne (Ne.symm hname)]

/-- A map of places has one name more if a new one is entered. -/
theorem length_enterPlace (places : List (String × Nat)) (d : Declaration) :
    (enterPlace places d).length =
      if d.functionName?.any (fun name => (places.lookup name).isNone) then places.length + 1
      else places.length := by
  rw [enterPlace]
  cases d.functionName? with
  | none => rfl
  | some new => cases hplace : places.lookup new <;> simp [hplace]

/-- A map of places that goes along with the list of functions is of the same size and finds every
name where the search finds it. So the search does what the map would do. -/
theorem Reaches.lookup_places (h : Reaches tokens entered e rest) :
    (entered.foldl enterPlace []).length = e.functions.size ∧
      ∀ name, (entered.foldl enterPlace []).lookup name = e.functionIndex? name := by
  induction h with
  | start =>
    refine ⟨rfl, fun name => ?_⟩
    simp [Environment.functionIndex?, Environment.empty]
  | refused _ _ ih => exact ih
  | entered hreach _ henter ih =>
    obtain ⟨htakes, -⟩ := Environment.enter_eq_ok_iff.mp henter
    obtain ⟨hsize, hlookup⟩ := ih
    rw [List.foldl_append, List.foldl_cons, List.foldl_nil]
    constructor
    · rw [length_enterPlace, Environment.size_functions_of_takes hreach.valid htakes]
      simp only [hsize, hlookup]
    · intro name
      rw [lookup_enterPlace, Environment.functionIndex?_of_takes hreach.valid htakes]
      simp only [hsize, hlookup]

/-- Whether there are faults or not, at the end the functions and the tree agree, and the
functions come in the order in which they were first declared by the declarations that were
entered. -/
theorem ofTokens_agrees (tokens : List Token) :
    (ofTokens tokens).tree.Agrees (ofTokens tokens).functions ∧
      ∃ entered e, Reaches tokens entered e [] ∧ (ofTokens tokens).tree = e.tree ∧
        (ofTokens tokens).functions = e.functions ∧
        (ofTokens tokens).functions.toList.map (·.name) =
          (entered.filterMap Declaration.functionName?).eraseDups := by
  obtain ⟨entered, e, hreach, htree, hfunctions⟩ := exists_reaches tokens
  constructor
  · rw [htree, hfunctions]
    exact hreach.agrees
  · refine ⟨entered, e, hreach, htree, hfunctions, ?_⟩
    rw [hfunctions]
    exact hreach.names

end Parse

end SmallC
