import SmallC.Proofs.Text.Pieces
import SmallC.Proofs.Tree.Traversal
import SmallC.Proofs.Tree.WrittenAttributes

/-!
# Printed trees

A printer goes on behind what it has written and comes back to the depth it started at, so what it
writes for a node depends on that depth alone. Over several lines, each node and each attribute
opens on a line of its own. If all line ends are taken out again, with the indentation behind
them, the text on one line is left.
-/

namespace SmallC

/-- All names of nodes and all keys of attributes have a property. -/
def Tree.EachNamed (p : String → Prop) (t : Tree) : Prop :=
  ∀ n ∈ t.nodes, p n.name ∧ ∀ e ∈ n.attributes, p e.1

namespace Tree.EachNamed

variable {p : String → Prop} {t : Tree}

/-- What all names are like, the name of each node is like, even of one that is not there. -/
theorem name (ht : t.EachNamed p) (hempty : p "") (id : Nat) : p (t.name id) := by
  unfold Tree.name node?
  cases hn : t.nodes[id]? with
  | none => exact hempty
  | some n => exact (ht n (Array.mem_of_getElem? hn)).1

/-- What all names are like, the key of each attribute is like. -/
theorem key (ht : t.EachNamed p) {id : Nat} {e : String × Attribute} (he : e ∈ t.attributes id) :
    p e.1 := by
  unfold attributes node? at he
  cases hn : t.nodes[id]? with
  | none => simp [hn] at he
  | some n =>
    rw [hn] at he
    exact (ht n (Array.mem_of_getElem? hn)).2 e he

end Tree.EachNamed

namespace Sexp

/-! ## What is written -/

/-- The gap before a part at a depth. -/
def gap (indented : Bool) (depth : Nat) : List Char :=
  if indented then '\n' :: List.replicate (2 * depth) ' ' else [' ']

/-- An attribute between its parentheses. -/
def attributeText (e : String × Attribute) : List Char :=
  '(' :: e.1.toList ++ ' ' :: e.2.written.toList ++ [')']

mutual

/-- An outline at a depth. -/
def outlineText (indented : Bool) (depth : Nat) : Outline → List Char
  | .node name attributes children =>
    '(' :: name.toList ++
      attributes.flatMap (fun e => gap indented (depth + 1) ++ attributeText e) ++
      outlinesText indented (depth + 1) children ++ [')']

/-- Outlines at a depth, with the gaps before them. -/
def outlinesText (indented : Bool) (depth : Nat) : List Outline → List Char
  | [] => []
  | o :: os => gap indented depth ++ outlineText indented depth o ++ outlinesText indented depth os

end

variable {t : Tree} {indented : Bool} {depth : Nat} {cs ds : List Char}

/-- Outlines are written one by one, each behind its gap. -/
theorem outlinesText_eq_flatMap (indented : Bool) (depth : Nat) (os : List Outline) :
    outlinesText indented depth os =
      os.flatMap fun o => gap indented depth ++ outlineText indented depth o := by
  induction os with
  | nil => rfl
  | cons o os ih => rw [outlinesText, ih, List.flatMap_cons]

/-- The text of a node is its name, its attributes and the texts of its children. -/
theorem outlineText_outlineAt (t : Tree) (indented : Bool) (depth id : Nat) :
    outlineText indented depth (t.outlineAt id) =
      '(' :: (t.name id).toList ++
        (t.attributes id).flatMap (fun e => gap indented (depth + 1) ++ attributeText e) ++
        (t.children id).toList.flatMap
          (fun c => gap indented (depth + 1) ++ outlineText indented (depth + 1) (t.outlineAt c)) ++
        [')'] := by
  rw [Tree.outlineAt_eq_node, outlineText, outlinesText_eq_flatMap, List.flatMap_map]

namespace Printer

/-- The printer with more text behind what it has written. -/
def append (p : Printer) (cs : List Char) : Printer := { p with out := p.out ++ String.ofList cs }

/-- The gap before a node, which the first node does not have. -/
def lead (p : Printer) : List Char := if p.depth = 0 then [] else gap p.indented p.depth

/-- Printing nothing changes nothing. -/
@[simp] theorem append_nil (p : Printer) : p.append [] = p := by
  simp [append]

/-- Printing twice is printing once what is behind each other. -/
theorem append_append (p : Printer) (cs ds : List Char) :
    (p.append cs).append ds = p.append (cs ++ ds) := by
  simp [append, String.append_assoc]

/-- What separates two parts is a gap. -/
theorem separate_eq (p : Printer) : p.separate = p.append (gap p.indented p.depth) := by
  unfold separate
  split
  · rename_i hindented
    rw [gap, if_pos hindented]
    rfl
  · rename_i hindented
    rw [gap, if_neg hindented, append, String.push_eq_append]
    rfl

/-- Opening a node prints its name and goes one deeper. -/
theorem openNode_eq (p : Printer) (name : String) :
    p.openNode name = { p.append (p.lead ++ '(' :: name.toList) with depth := p.depth + 1 } := by
  have hname (out : String) :
      out.push '(' ++ name = out ++ String.ofList ('(' :: name.toList) := by
    apply String.toList_inj.mp
    simp
  unfold openNode lead
  split
  · simp [append, hname]
  · rw [separate_eq, ← append_append]
    simp [append, hname]

/-- An attribute is printed behind a gap. -/
theorem writeAttribute_eq (p : Printer) (key : String) (value : Attribute) :
    p.writeAttribute key value =
      p.append (gap p.indented p.depth ++ attributeText (key, value)) := by
  have hattribute : "(" ++ key ++ " " ++ value.written ++ ")" =
      String.ofList (attributeText (key, value)) := by
    apply String.toList_inj.mp
    simp [attributeText]
  have hwrite : p.writeAttribute key value = p.separate.append (attributeText (key, value)) := by
    rw [append, ← hattribute]
    simp only [writeAttribute, String.append_assoc]
  rw [hwrite, separate_eq, append_append]

/-- Attributes are printed one by one, each behind a gap. -/
theorem writeAttributes_eq (p : Printer) (values : Attributes) :
    p.writeAttributes values =
      p.append (values.flatMap fun e => gap p.indented p.depth ++ attributeText e) := by
  induction values generalizing p with
  | nil => exact p.append_nil.symm
  | cons e values ih =>
    have hstep : p.writeAttributes (e :: values) =
        (p.writeAttribute e.1 e.2).writeAttributes values := rfl
    rw [hstep, ih, writeAttribute_eq, append_append, List.flatMap_cons]
    rfl

mutual

/-- Writing an outline puts its text behind what is written, and changes nothing else. -/
theorem writeOutline_eq (p : Printer) :
    (o : Outline) → p.writeOutline o = p.append (p.lead ++ outlineText p.indented p.depth o)
  | .node name attributes children => by
    rw [writeOutline, openNode_eq, writeAttributes_eq, writeOutlines_eq _ (Nat.succ_ne_zero _),
      append_append, outlineText]
    simp [append, closeNode, String.push_eq_append, String.append_assoc]

/-- Below a node outlines are printed one by one, and the depth is afterwards what it was before. -/
theorem writeOutlines_eq (p : Printer) (hdepth : p.depth ≠ 0) :
    (os : List Outline) → p.writeOutlines os = p.append (outlinesText p.indented p.depth os)
  | [] => p.append_nil.symm
  | o :: os => by
    have hlead : p.lead = gap p.indented p.depth := if_neg hdepth
    rw [writeOutlines, writeOutline_eq p o, writeOutlines_eq (p.append _) hdepth os, append_append,
      hlead, outlinesText]
    rfl

end

end Printer

/-- The text on one line. -/
theorem toList_line (o : Outline) : (line o).toList = outlineText false 0 o := by
  rw [line, Printer.writeOutline_eq]
  simp [Printer.start, Printer.append, Printer.lead]

/-- The text on indented lines, with a line feed at its end. -/
theorem toList_lines (o : Outline) : (lines o).toList = outlineText true 0 o ++ ['\n'] := by
  rw [lines, Printer.writeOutline_eq]
  simp [Printer.start, Printer.append, Printer.lead]

/-! ## Texts without line ends -/

/-- The text with one space in the place of each line end and the spaces behind it. -/
def onOneLine : List Char → List Char
  | [] => []
  | c :: cs =>
    if c = '\n' then ' ' :: onOneLine (cs.dropWhile (· = ' '))
    else c :: onOneLine cs
termination_by cs => cs.length
decreasing_by
  · have := (List.dropWhile_sublist (l := cs) (· = ' ')).length_le
    simp only [List.length_cons]
    omega
  · simp

/-- An attribute is on one line, if its key is. -/
theorem not_mem_attributeText {e : String × Attribute} (hkey : '\n' ∉ e.1.toList) :
    '\n' ∉ attributeText e := by
  simp [attributeText, hkey, Attribute.not_mem_written e.2]

/-- Taking out the line ends of one text gives another one, whatever comes behind. -/
def Joins (cs ds : List Char) : Prop := ∀ rest, onOneLine (cs ++ rest) = ds ++ onOneLine rest

/-- What is on one line joins to itself. -/
theorem joins_self (hcs : '\n' ∉ cs) : Joins cs cs := by
  intro rest
  induction cs with
  | nil => rfl
  | cons c cs ih =>
    obtain ⟨hc, hcs⟩ := List.ne_and_not_mem_of_not_mem_cons hcs
    rw [List.cons_append, onOneLine, if_neg (Ne.symm hc), ih hcs, List.cons_append]

/-- Joining goes part by part. -/
theorem Joins.append {cs' ds' : List Char} (h : Joins cs ds) (h' : Joins cs' ds') :
    Joins (cs ++ cs') (ds ++ ds') := by
  intro rest
  rw [List.append_assoc, h, h', List.append_assoc]

/-- Joining goes element by element. -/
theorem joins_flatMap {α : Type} {f g : α → List Char} {xs : List α}
    (h : ∀ x ∈ xs, Joins (f x) (g x)) : Joins (xs.flatMap f) (xs.flatMap g) := by
  induction xs with
  | nil => exact fun rest => rfl
  | cons x xs ih =>
    obtain ⟨hx, hxs⟩ := List.forall_mem_cons.mp h
    rw [List.flatMap_cons, List.flatMap_cons]
    exact hx.append (ih hxs)

/-- A gap ends with the parenthesis behind it. -/
theorem joins_gap (depth : Nat) (h : Joins ('(' :: cs) ds) :
    Joins (gap true depth ++ '(' :: cs) (gap false depth ++ ds) := by
  intro rest
  have hdrop : (List.replicate (2 * depth) ' ' ++ '(' :: (cs ++ rest)).dropWhile (· = ' ') =
      '(' :: (cs ++ rest) := by
    rw [List.dropWhile_append_of_pos fun c hc => by simp [List.eq_of_mem_replicate hc]]
    exact List.dropWhile_cons_of_neg (by decide)
  have hgap : gap true depth ++ '(' :: cs ++ rest =
      '\n' :: (List.replicate (2 * depth) ' ' ++ '(' :: (cs ++ rest)) := by
    simp [gap]
  rw [hgap, onOneLine, if_pos rfl, hdrop, ← List.cons_append, h]
  rfl

/-- The indented text of a node joins to its text on one line. -/
theorem joins_outlineText (ht : t.EachNamed ('\n' ∉ ·.toList)) (depth id : Nat) :
    Joins (outlineText true depth (t.outlineAt id)) (outlineText false depth (t.outlineAt id)) := by
  induction id using t.induction_children generalizing depth with
  | h id ih =>
    have hname : '\n' ∉ '(' :: (t.name id).toList := by
      simpa using ht.name (by decide) id
    rw [outlineText_outlineAt, outlineText_outlineAt]
    refine ((joins_self hname).append ?_).append ?_ |>.append (joins_self (by decide))
    · exact joins_flatMap fun e he =>
        joins_gap _ (joins_self (not_mem_attributeText (ht.key he)))
    · refine joins_flatMap fun c hc => ?_
      have hchild := ih c (Array.mem_toList_iff.mp hc) (depth + 1)
      rw [outlineText_outlineAt] at hchild ⊢
      exact joins_gap _ hchild

/-! ## Lines -/

mutual

/-- The parts of an outline at a depth, each with its own depth: the node, its attributes, and
what is below it. -/
def parts (depth : Nat) : Outline → List (Nat × List Char)
  | .node name attributes children =>
    (depth, '(' :: name.toList) :: attributes.map (fun e => (depth + 1, attributeText e)) ++
      partsBelow (depth + 1) children

/-- The parts of outlines at a depth. -/
def partsBelow (depth : Nat) : List Outline → List (Nat × List Char)
  | [] => []
  | o :: os => parts depth o ++ partsBelow depth os

end

/-- The parts of outlines are those of each. -/
theorem partsBelow_eq_flatMap (depth : Nat) (os : List Outline) :
    partsBelow depth os = os.flatMap (parts depth) := by
  induction os with
  | nil => rfl
  | cons o os ih => rw [partsBelow, ih, List.flatMap_cons]

/-- The parts of a node are its name, its attributes one deeper, and the parts of its children. -/
theorem parts_outlineAt (t : Tree) (depth id : Nat) :
    parts depth (t.outlineAt id) =
      [(depth, '(' :: (t.name id).toList)] ++
        (t.attributes id).flatMap (fun e => [(depth + 1, attributeText e)]) ++
        (t.children id).toList.flatMap fun c => parts (depth + 1) (t.outlineAt c) := by
  rw [Tree.outlineAt_eq_node, parts, partsBelow_eq_flatMap, List.flatMap_map, List.map_eq_flatMap]
  rfl

/-- A line that a part opens on: indented by two spaces for each step of its depth, and with
nothing but closing parentheses behind the part. -/
def OpensOn (line : List Char) (part : Nat × List Char) : Prop :=
  ∃ n, line = List.replicate (2 * part.1) ' ' ++ part.2 ++ List.replicate n ')'

/-- A text of lines, each with its line end before it, on which parts open. -/
def OnLines (cs : List Char) (parts : List (Nat × List Char)) : Prop :=
  ∃ lines : List (List Char), (∀ l ∈ lines, '\n' ∉ l) ∧ List.Forall₂ OpensOn lines parts ∧
    cs = lines.flatMap ('\n' :: ·)

section

variable {ps qs : List (Nat × List Char)}

/-- What stands on lines stands there part by part. -/
theorem OnLines.append (h : OnLines cs ps) (h' : OnLines ds qs) :
    OnLines (cs ++ ds) (ps ++ qs) := by
  obtain ⟨lines, hline, hopen, rfl⟩ := h
  obtain ⟨lines', hline', hopen', rfl⟩ := h'
  exact ⟨lines ++ lines', List.forall_mem_append.mpr ⟨hline, hline'⟩, List.rel_append hopen hopen',
    List.flatMap_append.symm⟩

/-- What stands on lines stands there element by element. -/
theorem onLines_flatMap {α : Type} {f : α → List Char} {g : α → List (Nat × List Char)}
    {xs : List α} (h : ∀ x ∈ xs, OnLines (f x) (g x)) : OnLines (xs.flatMap f) (xs.flatMap g) := by
  induction xs with
  | nil => exact ⟨[], by simp, .nil, rfl⟩
  | cons x xs ih =>
    obtain ⟨hx, hxs⟩ := List.forall_mem_cons.mp h
    exact hx.append (ih hxs)

/-- A part behind its gap stands on a line of its own, at its depth. -/
theorem onLines_part (depth : Nat) (hcs : '\n' ∉ cs) :
    OnLines (gap true depth ++ cs) [(depth, cs)] := by
  refine ⟨[List.replicate (2 * depth) ' ' ++ cs], ?_, .cons ⟨0, by simp⟩ .nil, by simp [gap]⟩
  simp [hcs]

/-- A closing parenthesis stands on the last line. -/
theorem OnLines.close (h : OnLines cs ps) (hne : ps ≠ []) : OnLines (cs ++ [')']) ps := by
  obtain ⟨lines, hline, hopen, rfl⟩ := h
  induction hopen with
  | nil => exact absurd rfl hne
  | @cons line part lines ps hfirst hrest ih =>
    obtain ⟨hfeed, hline⟩ := List.forall_mem_cons.mp hline
    cases hrest with
    | nil =>
      obtain ⟨n, rfl⟩ := hfirst
      have hlast : List.replicate (2 * part.1) ' ' ++ part.2 ++ List.replicate (n + 1) ')' =
          List.replicate (2 * part.1) ' ' ++ part.2 ++ List.replicate n ')' ++ [')'] := by
        rw [List.replicate_succ', List.append_assoc _ _ [')']]
      refine ⟨_, ?_, .cons ⟨n + 1, hlast.symm⟩ .nil, by simp⟩
      simpa using hfeed
    | cons hnext hrest =>
      obtain ⟨lines', hline', hopen', heq⟩ := ih (List.cons_ne_nil _ _) hline
      refine ⟨line :: lines', List.forall_mem_cons.mpr ⟨hfeed, hline'⟩, .cons hfirst hopen', ?_⟩
      rw [List.flatMap_cons, List.append_assoc, heq, List.flatMap_cons]

/-- The lines of such a text are found by cutting it. -/
theorem OnLines.pieces (h : OnLines ('\n' :: cs) ps) (hne : ps ≠ []) :
    List.Forall₂ OpensOn (Text.pieces '\n' cs) ps := by
  obtain ⟨lines, hline, hopen, heq⟩ := h
  have hjoined (l : List Char) (ls : List (List Char)) :
      (l :: ls).flatMap ('\n' :: ·) = '\n' :: Text.joined '\n' (l :: ls) := by
    induction ls generalizing l with
    | nil => simp [Text.joined]
    | cons m ls ih => rw [List.flatMap_cons, ih, Text.joined, List.cons_append]
  cases lines with
  | nil =>
    cases hopen
    exact absurd rfl hne
  | cons l ls =>
    rw [hjoined] at heq
    rw [(List.cons.inj heq).2, Text.pieces_joined (List.cons_ne_nil l ls) hline]
    exact hopen

end

/-- Every node has a part. -/
theorem parts_ne_nil (t : Tree) (depth id : Nat) : parts depth (t.outlineAt id) ≠ [] := by
  rw [parts_outlineAt]
  simp

/-- Each part of a tree opens on a line of its own. -/
theorem onLines_outlineText (ht : t.EachNamed ('\n' ∉ ·.toList)) (depth id : Nat) :
    OnLines (gap true depth ++ outlineText true depth (t.outlineAt id))
      (parts depth (t.outlineAt id)) := by
  induction id using t.induction_children generalizing depth with
  | h id ih =>
    have hname : '\n' ∉ '(' :: (t.name id).toList := by
      simpa using ht.name (by decide) id
    have hne := parts_ne_nil t depth id
    rw [outlineText_outlineAt, ← List.append_assoc, ← List.append_assoc, ← List.append_assoc]
    rw [parts_outlineAt] at hne ⊢
    refine OnLines.close ((OnLines.append (onLines_part depth hname) ?_).append ?_) hne
    · exact onLines_flatMap fun e he => onLines_part _ (not_mem_attributeText (ht.key he))
    · exact onLines_flatMap fun c hc => ih c (Array.mem_toList_iff.mp hc) (depth + 1)

end Sexp

namespace Tree

open Sexp (Printer)

/-- Printed over several lines, a tree has its last line end behind it, and every node and every
attribute opens on a line of its own, indented by two spaces for each step of its depth. If all
other line ends are taken out, with the spaces behind them, the tree on one line is left. And
whatever a printer has written and however deep it is, writing a node leaves it at that depth, so
that the node is written in the same way when it is written once more. -/
theorem lines_onOneLine (t : Tree) :
    (t.EachNamed ('\n' ∉ ·.toList) →
      ∃ text, (Sexp.lines t.outline).toList = text ++ ['\n'] ∧
        Sexp.onOneLine text = (Sexp.line t.outline).toList ∧
        List.Forall₂ Sexp.OpensOn (Text.pieces '\n' text) (Sexp.parts 0 t.outline)) ∧
      ∀ (p : Printer) (id : Nat), ∃ text : String,
        p.writeOutline (t.outlineAt id) = { p with out := p.out ++ text } ∧
          (p.writeOutline (t.outlineAt id)).writeOutline (t.outlineAt id) =
            { p with out := p.out ++ text ++ text } := by
  constructor
  · intro ht
    refine ⟨_, Sexp.toList_lines t.outline, ?_, ?_⟩
    · have hjoins := Sexp.joins_outlineText ht 0 root []
      rw [Sexp.toList_line]
      simpa [Sexp.onOneLine, outline] using hjoins
    · have hlines := Sexp.onLines_outlineText ht 0 root
      exact hlines.pieces (Sexp.parts_ne_nil t 0 root)
  · intro p id
    refine ⟨String.ofList (p.lead ++ Sexp.outlineText p.indented p.depth (t.outlineAt id)),
      p.writeOutline_eq _, ?_⟩
    rw [p.writeOutline_eq, Printer.writeOutline_eq]
    rfl

/-- A text with a line end and parentheses of its own. -/
theorem lines_onOneLine_assembly :
    let t := ofCalls [.addChild 1 "Assembly0", .setAttribute 2 "Source" (.text "a\n  (b")]
    let text := "(Unit\n  (Body\n    (Assembly0\n      (Source \"a\\n  (b\"))))"
    t.EachNamed ('\n' ∉ ·.toList) ∧ Sexp.lines t.outline = text.push '\n' ∧
      Sexp.onOneLine text.toList = "(Unit (Body (Assembly0 (Source \"a\\n  (b\"))))".toList ∧
      List.Forall₂ Sexp.OpensOn (Text.pieces '\n' text.toList) (Sexp.parts 0 t.outline) := by
  intro t text
  have ht : t.EachNamed ('\n' ∉ ·.toList) := by
    unfold EachNamed
    decide +kernel
  have hlines : Sexp.lines t.outline = text.push '\n' := by decide +kernel
  have hline : Sexp.line t.outline = "(Unit (Body (Assembly0 (Source \"a\\n  (b\"))))" := by
    decide +kernel
  obtain ⟨text', htext, honOneLine, hparts⟩ := (lines_onOneLine t).1 ht
  obtain rfl : text.toList = text' := by
    rw [hlines, String.toList_push] at htext
    exact List.append_cancel_right htext
  rw [hline] at honOneLine
  exact ⟨ht, hlines, honOneLine, hparts⟩

end Tree

end SmallC
