import Mathlib.Data.List.Induction
import SmallC.Proofs.Json.WholeNumbers
import SmallC.Proofs.Parse.Initializers
import SmallC.Tree.Outline

/-!
# The JSON value of a tree

A tree is written as a JSON text of many lines, with floating-point values in single precision, and
it has a JSON value, with these values in double precision. Reading the text gives the value, but
for the floating-point values: they are read from decimals that are as short as single precision
allows, and a decimal that is good enough for single precision may be another number in double
precision.
-/

namespace SmallC

namespace Json

/-! ## Floating-point values -/

mutual

/-- A value with something else in the place of each floating-point value. -/
def mapReals (g : Binary → Json) : Json → Json
  | .null => .null
  | .bool b => .bool b
  | .whole n => .whole n
  | .real _ x => g x
  | .string s => .string s
  | .array items => .array (mapRealsItems g items)
  | .object members => .object (mapRealsMembers g members)

/-- Items with something else in the place of each floating-point value. -/
def mapRealsItems (g : Binary → Json) : List Json → List Json
  | [] => []
  | item :: items => item.mapReals g :: mapRealsItems g items

/-- Members with something else in the place of each floating-point value. -/
def mapRealsMembers (g : Binary → Json) : List (String × Json) → List (String × Json)
  | [] => []
  | (key, value) :: members => (key, value.mapReals g) :: mapRealsMembers g members

end

mutual

/-- The floating-point values in a value. -/
def reals : Json → List Binary
  | .real _ x => [x]
  | .array items => realsOfItems items
  | .object members => realsOfMembers members
  | .null | .bool _ | .whole _ | .string _ => []

/-- The floating-point values in items. -/
def realsOfItems : List Json → List Binary
  | [] => []
  | item :: items => item.reals ++ realsOfItems items

/-- The floating-point values in members. -/
def realsOfMembers : List (String × Json) → List Binary
  | [] => []
  | (_, value) :: members => value.reals ++ realsOfMembers members

end

/-- The reals of members are those of their values. -/
theorem mem_realsOfMembers {x : Binary} {members : List (String × Json)} :
    x ∈ realsOfMembers members ↔ ∃ m ∈ members, x ∈ m.2.reals := by
  induction members with
  | nil => simp [realsOfMembers]
  | cons m members ih =>
    simp [realsOfMembers, ih]

section

variable {g h : Binary → Json}

mutual

/-- What stands in the place of the floating-point values can be told from the whole. -/
theorem mapReals_eq_iff (j : Json) : j.mapReals g = j.mapReals h ↔ ∀ x ∈ j.reals, g x = h x := by
  cases j with
  | array items => simp only [mapReals, reals, Json.array.injEq, mapRealsItems_eq_iff]
  | object members => simp only [mapReals, reals, Json.object.injEq, mapRealsMembers_eq_iff]
  | real f x => simp [mapReals, reals]
  | null => simp [mapReals, reals]
  | bool b => simp [mapReals, reals]
  | whole n => simp [mapReals, reals]
  | string s => simp [mapReals, reals]

/-- Two ways to read reals agree on items exactly if they agree on the reals that occur. -/
theorem mapRealsItems_eq_iff (items : List Json) :
    mapRealsItems g items = mapRealsItems h items ↔ ∀ x ∈ realsOfItems items, g x = h x := by
  cases items with
  | nil => simp [mapRealsItems, realsOfItems]
  | cons item items =>
    simp only [mapRealsItems, realsOfItems, List.cons.injEq, mapReals_eq_iff,
      mapRealsItems_eq_iff, List.forall_mem_append]

/-- Two ways to read reals agree on members exactly if they agree on the reals that occur. -/
theorem mapRealsMembers_eq_iff (members : List (String × Json)) :
    mapRealsMembers g members = mapRealsMembers h members ↔
      ∀ x ∈ realsOfMembers members, g x = h x := by
  cases members with
  | nil => simp [mapRealsMembers, realsOfMembers]
  | cons member members =>
    obtain ⟨key, value⟩ := member
    simp only [mapRealsMembers, realsOfMembers, List.cons.injEq, Prod.mk.injEq, true_and,
      mapReals_eq_iff, mapRealsMembers_eq_iff, List.forall_mem_append]

end

end

/-! ## Members in order -/

/-- A member behind all others comes last. -/
theorem insert_last {key : String} {members : List (String × Json)}
    (h : ∀ m ∈ members, m.1 < key) (value : Json) :
    insert key value members = members ++ [(key, value)] := by
  induction members with
  | nil => rfl
  | cons m members ih =>
    obtain ⟨k, v⟩ := m
    obtain ⟨hk, hmembers⟩ := List.forall_mem_cons.mp h
    have hne : key ≠ k := by
      rintro rfl
      exact String.lt_irrefl _ hk
    rw [insert, if_neg hne, if_neg (String.lt_asymm hk), ih hmembers, List.cons_append]

/-- Members that are in the order of their keys stay as they are. -/
theorem ordered_of_pairwise {members : List (String × Json)}
    (h : members.Pairwise fun a b => a.1 < b.1) : ordered members = members := by
  induction members using List.reverseRecOn with
  | nil => rfl
  | append_singleton members m ih =>
    obtain ⟨hmembers, -, hlast⟩ := List.pairwise_append.mp h
    have hinsert := insert_last (fun a ha => hlast a ha m List.mem_cons_self) m.2
    rw [ordered, List.foldl_append]
    change insert m.1 m.2 (ordered members) = _
    rw [ih hmembers, hinsert]

end Json

namespace Outline

variable {f : Binary.Format} {attributes : Attributes} {o : Outline} {os : List Outline}

/-! ## The attributes of nodes -/

/-- Attributes are in the order of their keys, and their floating-point values are whole. -/
structure RegularAttributes (attributes : Attributes) : Prop where
  ordered : attributes.Pairwise fun a b => a.1 < b.1
  whole : ∀ a ∈ attributes, ∀ x, a.2 = .constant (.float x) → x.IsWhole

mutual

/-- The attributes of every node are regular. -/
def Regular : Outline → Prop
  | .node _ attributes children => RegularAttributes attributes ∧ AllRegular children

/-- The attributes of every node in several outlines are regular. -/
def AllRegular : List Outline → Prop
  | [] => True
  | o :: os => o.Regular ∧ AllRegular os

end

/-- A node without children is regular if its attributes are. -/
theorem regular_leaf {name : String} (h : RegularAttributes attributes) :
    Regular (.node name attributes []) := by
  rw [Regular, AllRegular]
  exact ⟨h, trivial⟩

/-- A node without attributes is regular if its children are. -/
theorem regular_of_allRegular (name : String) (h : AllRegular os) :
    Regular (.node name [] os) := by
  rw [Regular]
  exact ⟨⟨.nil, nofun⟩, h⟩

/-- Attributes are in the order of their keys if the list of the keys is. -/
theorem pairwise_of_keys {keys : List String} (hkeys : keys.Pairwise (· < ·))
    (h : attributes.map Prod.fst = keys) : attributes.Pairwise fun a b => a.1 < b.1 :=
  List.pairwise_map.mp (h ▸ hkeys)

/-- The constant of a variable is a whole number, even if it is single precision. -/
theorem isWhole_of_initialConstant {type : TypeSpec} {initializer : Option Token} {x : Binary}
    (h : initialConstant type initializer = some (.float x)) : x.IsWhole := by
  obtain ⟨literal, -, hliteral⟩ := Option.bind_eq_some_iff.mp h
  cases hbase : type.base <;> rw [hbase] at hliteral <;> cases hliteral
  exact literal.isWhole_toSingle

/-- The node of a variable is regular: `Ptr` comes before `Type`, and `Type` before `Value`. -/
theorem regular_variableOutline (index : Nat) (type : TypeSpec) (initializer : Option Token) :
    (variableOutline index type initializer).Regular := by
  refine regular_leaf ⟨?_, fun a ha x hx => ?_⟩
  · cases initialConstant type initializer with
    | none => exact pairwise_of_keys (by decide : ["Ptr", "Type"].Pairwise (· < ·)) rfl
    | some c => exact pairwise_of_keys (by decide : ["Ptr", "Type", "Value"].Pairwise (· < ·)) rfl
  · rcases List.mem_append.mp ha with ha | ha
    · simp only [List.mem_cons, List.not_mem_nil, or_false] at ha
      rcases ha with rfl | rfl <;> cases hx
    · obtain ⟨c, hc, rfl⟩ := List.mem_map.mp ha
      obtain rfl : c = .float x := Attribute.constant.inj hx
      exact isWhole_of_initialConstant (Option.mem_toList.mp hc)

/-- The nodes of parameters are regular. -/
theorem allRegular_argumentOutlines (index : Nat) (ps : List Parameter) :
    AllRegular (argumentOutlines index ps) := by
  induction ps generalizing index with
  | nil => trivial
  | cons p ps ih =>
    rw [argumentOutlines, AllRegular]
    have hkeys : ["Name", "Ptr", "Type"].Pairwise (· < ·) := by decide
    exact ⟨regular_leaf ⟨pairwise_of_keys hkeys rfl, by simp⟩, ih (index + 1)⟩

/-- The nodes of strings are regular. -/
theorem allRegular_sourceOutlines (index : Nat) (ts : List Token) :
    AllRegular (sourceOutlines index ts) := by
  induction ts generalizing index with
  | nil => trivial
  | cons t ts ih =>
    rw [sourceOutlines, AllRegular]
    exact ⟨regular_leaf ⟨List.pairwise_singleton _ _, by simp⟩, ih (index + 1)⟩

/-- The nodes of a program are regular. -/
theorem allRegular_outlines (index : Nat) (p : Program) : AllRegular (p.outlines index) := by
  induction p generalizing index with
  | empty => trivial
  | «variable» type name initializer rest ih =>
    rw [Program.outlines, AllRegular]
    exact ⟨regular_variableOutline index type initializer, ih (index + 1)⟩
  | prototype header rest ih => exact ih index
  | definition header body rest ihBody ihRest =>
    have harguments := regular_of_allRegular "Arguments"
      (allRegular_argumentOutlines 0 header.parameters)
    have hbody := regular_of_allRegular "Body" (ihBody 0)
    rw [Program.outlines, AllRegular]
    refine ⟨regular_of_allRegular _ ?_, ihRest (index + 1)⟩
    simp only [AllRegular, harguments, hbody, and_self]
  | assembly sources rest ih =>
    rw [Program.outlines, AllRegular]
    exact ⟨regular_of_allRegular _ (allRegular_sourceOutlines 0 sources), ih (index + 1)⟩

/-- The attributes of every node of a program are regular. -/
theorem regular_outline (p : Program) : p.outline.Regular := by
  refine regular_of_allRegular _ ?_
  simp only [AllRegular, regular_of_allRegular _ (allRegular_outlines 0 p), and_self]

/-! ## The two renderings -/

/-- The fields of a node in a text of several lines. -/
def documentFields (name attributes children : Json) : List (String × Json) :=
  [("name", name), ("attributes", attributes), ("children", children)]

/-- The fields of a node in a text of one line. -/
def valueFields (name attributes children : Json) : List (String × Json) :=
  [("attributes", attributes), ("children", children), ("name", name)]

/-- The JSON value that an outline is written as over several lines. -/
def documentJson (o : Outline) : Json := o.toJson Binary.single documentFields

/-- The JSON value that an outline is written as on one line. -/
def valueJson (o : Outline) : Json := o.toJson Binary.double valueFields

/-- The document is the indented form of its JSON value. -/
theorem lines_documentJson (o : Outline) : o.documentJson.lines = o.document := rfl

/-- The one-line rendering is that of its JSON value. -/
theorem line_valueJson (o : Outline) : o.valueJson.line = o.value := rfl

/-- An attribute as JSON, floating-point values in the given format. -/
def attributeJson (f : Binary.Format) : Attribute → Json
  | .text s => .string s
  | .type base => .string base.name
  | .flag b => .bool b
  | .constant value => value.toJson f

/-- The attributes as one object, a member for each. -/
theorem attributesJson_eq (f : Binary.Format) (attributes : Attributes) :
    attributesJson f attributes = .object (attributes.map fun a => (a.1, attributeJson f a.2)) := by
  refine congrArg Json.object (List.map_congr_left fun a _ => ?_)
  obtain ⟨key, value⟩ := a
  cases value <;> rfl

/-- An attribute is read from the text as it is in the value, but for a floating-point value. -/
theorem decoded_attributeJson (a : Attribute) : (attributeJson Binary.single a).decoded =
    (attributeJson Binary.double a).mapReals (Json.reread Binary.single) := by
  cases a with
  | constant value => cases value <;> simp [attributeJson, Constant.toJson, Json.decoded,
      Json.mapReals]
  | _ => simp [attributeJson, Json.decoded, Json.mapReals]

/-- Attributes in the order of their keys are decoded to what the other rendering has, with each
single read back from its digits. -/
theorem decoded_attributesJson (h : attributes.Pairwise fun a b => a.1 < b.1) :
    (attributesJson Binary.single attributes).decoded =
      (attributesJson Binary.double attributes).mapReals (Json.reread Binary.single) := by
  have hmembers : Json.decodedMembers
      (attributes.map fun a => (a.1, attributeJson Binary.single a.2)) =
        attributes.map fun a => (a.1, (attributeJson Binary.single a.2).decoded) := by
    clear h
    induction attributes with
    | nil => simp [Json.decodedMembers]
    | cons a attributes ih => simp [Json.decodedMembers, ih]
  have hreals : Json.mapRealsMembers (Json.reread Binary.single)
      (attributes.map fun a => (a.1, attributeJson Binary.double a.2)) =
        attributes.map fun a => (a.1, (attributeJson Binary.single a.2).decoded) := by
    clear h hmembers
    induction attributes with
    | nil => simp [Json.mapRealsMembers]
    | cons a attributes ih => simp [Json.mapRealsMembers, ih, decoded_attributeJson]
  simp only [attributesJson_eq, Json.decoded, Json.mapReals, hmembers, hreals]
  rw [Json.ordered_of_pairwise (List.pairwise_map.mpr h)]

/-- Decoding the fields of a document decodes each of them; that they are in another order does not
matter to keys. -/
theorem decodedMembers_documentFields (name attributes children : Json) :
    Json.decodedMembers (documentFields name attributes children) =
      documentFields name.decoded attributes.decoded children.decoded := by
  simp only [documentFields, Json.decodedMembers]

/-- The reals in the fields of a value are those of each field. -/
theorem mapRealsMembers_valueFields (g : Binary → Json) (name attributes children : Json) :
    Json.mapRealsMembers g (valueFields name attributes children) =
      valueFields (name.mapReals g) (attributes.mapReals g) (children.mapReals g) := by
  simp only [valueFields, Json.mapRealsMembers]

/-- The fields of a node are in order when they are read. -/
theorem ordered_documentFields (name attributes children : Json) :
    Json.ordered (documentFields name attributes children) =
      valueFields name attributes children := by
  have hname : ¬ "attributes" = "name" ∧ "attributes" < "name" := by decide
  have hattributes : ¬ "children" = "attributes" ∧ ¬ "children" < "attributes" := by decide
  have hchildren : ¬ "children" = "name" ∧ "children" < "name" := by decide
  simp only [documentFields, valueFields, Json.ordered, List.foldl_cons, List.foldl_nil,
    Json.insert, hname, hattributes, hchildren, if_true, if_false]

mutual

/-- An outline is read from its text as its value is, but for the floating-point values. -/
theorem decoded_toJson (o : Outline) (h : o.Regular) :
    (o.toJson Binary.single documentFields).decoded =
      (o.toJson Binary.double valueFields).mapReals (Json.reread Binary.single) := by
  obtain ⟨name, attributes, children⟩ := o
  rw [Regular] at h
  have hname : Json.decoded (.string name) =
      Json.mapReals (Json.reread Binary.single) (.string name) := by
    rw [Json.decoded, Json.mapReals]
  have hchildren : Json.decoded (.array (toJsons Binary.single documentFields children)) =
      Json.mapReals (Json.reread Binary.single)
        (.array (toJsons Binary.double valueFields children)) := by
    rw [Json.decoded, Json.mapReals, decodedItems_toJsons children h.2]
  rw [toJson, toJson, Json.decoded, Json.mapReals, decodedMembers_documentFields,
    ordered_documentFields, mapRealsMembers_valueFields, hname, hchildren,
    decoded_attributesJson h.1.ordered]

/-- Children are decoded one by one to what the other rendering has. -/
theorem decodedItems_toJsons (os : List Outline) (h : AllRegular os) :
    Json.decodedItems (toJsons Binary.single documentFields os) =
      Json.mapRealsItems (Json.reread Binary.single) (toJsons Binary.double valueFields os) := by
  cases os with
  | nil => simp [toJsons, Json.decodedItems, Json.mapRealsItems]
  | cons o os =>
    rw [AllRegular] at h
    rw [toJsons, toJsons, Json.decodedItems, Json.mapRealsItems, decoded_toJson o h.1,
      decodedItems_toJsons os h.2]

end

/-- The reals in a node are those of its attributes and of its children; its name has none. -/
theorem reals_valueFields (name attributes children : Json) :
    Json.realsOfMembers (valueFields name attributes children) =
      attributes.reals ++ (children.reals ++ name.reals) := by
  simp [valueFields, Json.realsOfMembers]

/-- The reals in attributes are whole numbers. -/
theorem isWhole_of_mem_attributesJson (h : RegularAttributes attributes) {x : Binary}
    (hx : x ∈ (attributesJson f attributes).reals) : x.IsWhole := by
  rw [attributesJson_eq, Json.reals, Json.mem_realsOfMembers] at hx
  obtain ⟨m, hm, hx⟩ := hx
  obtain ⟨⟨key, a⟩, ha, rfl⟩ := List.mem_map.mp hm
  cases a with
  | constant value =>
    cases value with
    | float y =>
      obtain rfl : x = y := by simpa [attributeJson, Constant.toJson, Json.reals] using hx
      exact h.whole _ ha x rfl
    | _ => simp [attributeJson, Constant.toJson, Json.reals] at hx
  | _ => simp [attributeJson, Json.reals] at hx

mutual

/-- The floating-point values of regular nodes are whole. -/
theorem isWhole_of_mem_toJson (o : Outline) (h : o.Regular) {x : Binary}
    (hx : x ∈ (o.toJson Binary.double valueFields).reals) : x.IsWhole := by
  obtain ⟨name, attributes, children⟩ := o
  rw [Regular] at h
  rw [toJson, Json.reals, reals_valueFields, List.mem_append, List.mem_append] at hx
  rcases hx with hx | hx | hx
  · exact isWhole_of_mem_attributesJson h.1 hx
  · rw [Json.reals] at hx
    exact isWhole_of_mem_toJsons children h.2 hx
  · rw [Json.reals] at hx
    cases hx

/-- The reals in children are whole numbers. -/
theorem isWhole_of_mem_toJsons (os : List Outline) (h : AllRegular os) {x : Binary}
    (hx : x ∈ Json.realsOfItems (toJsons Binary.double valueFields os)) : x.IsWhole := by
  cases os with
  | nil =>
    rw [toJsons, Json.realsOfItems] at hx
    cases hx
  | cons o os =>
    rw [AllRegular] at h
    rw [toJsons, Json.realsOfItems, List.mem_append] at hx
    rcases hx with hx | hx
    · exact isWhole_of_mem_toJson o h.1 hx
    · exact isWhole_of_mem_toJsons os h.2 hx

end

end Outline

namespace Parse

/-- The tree of every parse is regular. -/
theorem regular_ofTokens (tokens : List Token) : (ofTokens tokens).tree.outline.Regular := by
  obtain ⟨entered, e, hreach, htree, -⟩ := exists_reaches tokens
  obtain ⟨p, -, hnodes, -⟩ := Environment.exists_lawful_of_enters hreach.enters
  rw [htree, Tree.outline_eq hnodes]
  exact Outline.regular_outline p

/-- The text of a tree is read as the value of the tree, but for the floating-point values. -/
theorem read?_document_ofTokens (tokens : List Token) :
    Json.read? (ofTokens tokens).tree.outline.document =
      some ((ofTokens tokens).tree.outline.valueJson.mapReals (Json.reread Binary.single)) := by
  rw [← Outline.lines_documentJson, Json.read?_lines, Outline.documentJson,
    Outline.decoded_toJson _ (regular_ofTokens tokens), Outline.valueJson]

/-- The text of a tree and its value agree but for large floating-point values. Whatever tokens are
parsed, and whatever faults there are, the text of many lines is read as a JSON value, which is the
value that the text of one line is written from, with every floating-point value as its shortest
decimal in single precision gives it. So the two are the same value if and only if each of these
decimals gives in double precision what it is in single precision, and this is so if none of the
values is `2 ^ 24` or more. -/
theorem read?_document (tokens : List Token) :
    let o := (ofTokens tokens).tree.outline
    o.valueJson.line = o.value ∧
      Json.read? o.document = some (o.valueJson.mapReals (Json.reread Binary.single)) ∧
      (Json.read? o.document = some (o.valueJson.mapReals Json.widened) ↔
        ∀ x ∈ o.valueJson.reals, Json.reread Binary.single x = Json.widened x) ∧
      ((∀ negative m e, .finite negative m e ∈ o.valueJson.reals →
          (Binary.ratio m e).1 < 2 ^ 24 * (Binary.ratio m e).2) →
        Json.read? o.document = some (o.valueJson.mapReals Json.widened)) := by
  intro o
  have hread := read?_document_ofTokens tokens
  have hagree : Json.read? o.document = some (o.valueJson.mapReals Json.widened) ↔
      ∀ x ∈ o.valueJson.reals, Json.reread Binary.single x = Json.widened x := by
    rw [hread, Option.some_inj, Json.mapReals_eq_iff]
  refine ⟨Outline.line_valueJson o, hread, hagree, fun hsmall => hagree.mpr fun x hx => ?_⟩
  exact Json.reread_eq_widened (Outline.isWhole_of_mem_toJson o (regular_ofTokens tokens) hx)
    fun negative m e hfinite => hsmall negative m e (hfinite ▸ hx)

/-- The floating-point values of a variable that is declared alone. -/
theorem reals_variable {type : TypeSpec} {x : Binary} :
    (Outline.node "Unit" [] [.node "Body" [] [.node "Variable0" [("Ptr", .flag type.isPointer),
      ("Type", .type type.base), ("Value", .constant (.float x))] []]]).valueJson.reals = [x] := by
  simp [Outline.valueJson, Outline.toJson, Outline.toJsons, Outline.valueFields,
    Outline.attributesJson, Json.reals, Json.realsOfItems, Json.realsOfMembers, Constant.toJson]

/-- The largest number of 24 bits is the same in both renderings. -/
theorem read?_document_odd :
    let ts : List Token := [⟨.keyword .float, "float", none, default⟩,
      ⟨.identifier, "x", none, default⟩, ⟨.symbol .eq, "=", none, default⟩,
      ⟨.number, "16777215", some (.whole 16777215), default⟩, ⟨.symbol .semi, ";", none, default⟩]
    Json.read? (ofTokens ts).tree.outline.document =
      some ((ofTokens ts).tree.outline.valueJson.mapReals Json.widened) := by
  intro ts
  have hvalue : Constant.ofLiteral .float (.whole 16777215) =
      some (.float (.finite false 16777215 0)) := by decide +kernel
  have houtline := (ofTokens_initialized ⟨.float, false⟩ ⟨.identifier, "x", none, default⟩
    ⟨.number, "16777215", some (.whole 16777215), default⟩ (by decide) rfl rfl hvalue).2
  refine (read?_document ts).2.2.2 fun negative m e hx => ?_
  rw [show (ofTokens ts).tree.outline = _ from houtline, reals_variable,
    List.mem_singleton] at hx
  cases hx
  decide

end Parse

end SmallC
