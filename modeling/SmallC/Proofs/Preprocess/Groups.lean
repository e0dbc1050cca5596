import SmallC.Preprocess

/-!
# Groups of lines

A line that opens a group, its branches and its `#endif` form a group, and groups
nest in branches. Here a text is a tree of groups, and the lines that count are found
by recursion on the tree with nothing but the macros at hand: the branch to take is
chosen where the group stands, and the other branches are left out as a whole.
-/

namespace SmallC

/-- What a line is to the groups of a text. -/
inductive GroupRole where
  | plain
  | opener
  | elif
  | else
  | endif
  deriving DecidableEq, Repr

namespace Directive

/-- What a directive is to the groups of a text. -/
def role : Directive → GroupRole
  | .ifdef _ | .ifndef _ | .if _ => .opener
  | .elif _ => .elif
  | .else => .else
  | .endif => .endif
  | .empty | .define _ | .undef _ | .include _ | .unknown _ => .plain

/-- The macros after a directive that counts. -/
def macrosAfter (macros : MacroTable) (location : Location) :
    Directive → Except DirectiveFault MacroTable
  | .define arguments =>
    (definition arguments).map fun d =>
      macros.insert ⟨d.name, d.parameters, d.body, location, false⟩
  | .undef arguments => (undefined arguments).map macros.erase
  | _ => .ok macros

/-- The condition that a directive puts on its branch. -/
def condition (macros : MacroTable) : Directive → Except DirectiveFault Bool
  | .ifdef arguments => (tested arguments).map macros.contains
  | .ifndef arguments => (tested arguments).map (!macros.contains ·)
  | .if arguments | .elif arguments =>
    match Condition.evaluate macros (arguments.map (·.token)) with
    | .ok value => .ok (value != 0)
    | .error fault => .error (.malformedCondition fault.message)
  | _ => .ok false

end Directive

namespace Line

/-- The directive that a line is, if it is one. -/
def directive? (l : Line) : Option Directive := Directive.ofLine? l.text.toList

/-- What a line is to the groups of its text. -/
def role (l : Line) : GroupRole := (l.directive?.map Directive.role).getD .plain

/-- A line is an `#include`, active or not. -/
def isInclude (l : Line) : Bool :=
  match l.directive? with
  | some (.include _) => true
  | _ => false

/-- A line stays in the text if it counts: it is no directive, or an unknown one. -/
def isKept (l : Line) : Bool :=
  match l.directive? with
  | none | some (.unknown _) => true
  | some _ => false

/-- The macros after a line that counts. -/
def macrosAfter (macros : MacroTable) (l : Line) : Except Diagnostic MacroTable :=
  match l.directive? with
  | none => .ok macros
  | some d => (d.macrosAfter macros l.location).mapError (.directive l.location)

/-- The condition that a line puts on its branch. -/
def condition (macros : MacroTable) (l : Line) : Except Diagnostic Bool :=
  match l.directive? with
  | none => .ok false
  | some d => (d.condition macros).mapError (.directive l.location)

end Line

/-- A line, and whether it counts: every branch that it stands in is taken, and it does
not itself belong to a group. -/
structure Mark where
  /-- The line. -/
  line : Line
  /-- It counts. -/
  live : Bool
  deriving DecidableEq, Repr

/-- What a marked line leaves in the text. -/
def Mark.emitted (m : Mark) : Line := if m.live && m.line.isKept then m.line else m.line.blank

/-- Lines none of which counts. -/
def Mark.dead (lines : List Line) : List Mark := lines.map (⟨·, false⟩)

mutual

/-- A text with its groups. -/
inductive Blocks where
  | empty
  | line (l : Line) (rest : Blocks)
  | group (opener : Line) (body : Blocks) (more : Branches) (rest : Blocks)

/-- What follows the first branch of a group. -/
inductive Branches where
  | endif (l : Line)
  | else (l : Line) (body : Blocks) (endif : Line)
  | elif (l : Line) (body : Blocks) (more : Branches)

end

mutual

/-- The lines of a text. -/
def Blocks.lines : Blocks → List Line
  | .empty => []
  | .line l rest => l :: rest.lines
  | .group opener body more rest => opener :: body.lines ++ more.lines ++ rest.lines

/-- The lines of the branches. -/
def Branches.lines : Branches → List Line
  | .endif l => [l]
  | .else l body endif => l :: body.lines ++ [endif]
  | .elif l body more => l :: body.lines ++ more.lines

end

mutual

/-- Every line of the tree has the role that its place gives it. -/
def Blocks.Proper : Blocks → Prop
  | .empty => True
  | .line l rest => l.role = .plain ∧ rest.Proper
  | .group opener body more rest =>
    opener.role = .opener ∧ body.Proper ∧ more.Proper ∧ rest.Proper

/-- Every line of the branches has the role that its place gives it. -/
def Branches.Proper : Branches → Prop
  | .endif l => l.role = .endif
  | .else l body endif => l.role = .else ∧ body.Proper ∧ endif.role = .endif
  | .elif l body more => l.role = .elif ∧ body.Proper ∧ more.Proper

end

/-- The macros after some lines and the marks of the lines, or the first fault. -/
abbrev Marked := Except Diagnostic (MacroTable × List Mark)

/-- Lines none of which counts leave the macros as they are. -/
def Marked.dead (macros : MacroTable) (lines : List Line) : Marked :=
  .ok (macros, Mark.dead lines)

/-- More lines after some lines, under the macros that these leave. -/
def Marked.andThen (r : Marked) (after : MacroTable → Marked) : Marked :=
  match r with
  | .error d => .error d
  | .ok (macros, marks) =>
    match after macros with
    | .error d => .error d
    | .ok (macros, marks') => .ok (macros, marks ++ marks')

/-- The mark of a line that counts. -/
def Line.mark (macros : MacroTable) (l : Line) : Marked :=
  match l.macrosAfter macros with
  | .error d => .error d
  | .ok macros => .ok (macros, [⟨l, true⟩])

/-- A branch that begins at the line `l` and goes on with the lines `body`, and then the
lines `more` of the branches after it. If its condition holds, the branch is taken and the
others do not count; if not, the branch does not count, and the choice is among the others. -/
def Branches.choose (macros : MacroTable) (l : Line) (body : List Line)
    (taken : MacroTable → Marked) (more : List Line) (others : MacroTable → Marked) : Marked :=
  match l.condition macros with
  | .error d => .error d
  | .ok true => ((Marked.dead macros [l]).andThen taken).andThen (Marked.dead · more)
  | .ok false => (Marked.dead macros (l :: body)).andThen others

mutual

/-- The marks of a text that counts, and the macros after it. -/
def Blocks.mark (macros : MacroTable) : Blocks → Marked
  | .empty => Marked.dead macros []
  | .line l rest => (l.mark macros).andThen fun macros => rest.mark macros
  | .group opener body more rest =>
    (Branches.choose macros opener body.lines (fun macros => body.mark macros)
      more.lines (fun macros => more.mark macros)).andThen fun macros => rest.mark macros

/-- The marks of the branches of a group, none of which is taken yet. -/
def Branches.mark (macros : MacroTable) : Branches → Marked
  | .endif l => Marked.dead macros [l]
  | .else l body endif =>
    ((Marked.dead macros [l]).andThen fun macros => body.mark macros).andThen
      (Marked.dead · [endif])
  | .elif l body more =>
    Branches.choose macros l body.lines (fun macros => body.mark macros)
      more.lines (fun macros => more.mark macros)

end

namespace Mark

/-- The lines that count among marked ones. -/
def counted (marks : List Mark) : List Line := (marks.filter (·.live)).map (·.line)

/-- Marking lines as dead keeps them. -/
@[simp] theorem lines_dead (lines : List Line) : (dead lines).map (·.line) = lines := by
  induction lines with
  | nil => rfl
  | cons l lines ih => simpa [dead] using ih

/-- No dead line counts. -/
@[simp] theorem counted_dead (lines : List Line) : counted (dead lines) = [] := by
  simp [dead, counted]

/-- The lines that count in two parts. -/
@[simp] theorem counted_append (marks marks' : List Mark) :
    counted (marks ++ marks') = counted marks ++ counted marks' := by
  simp [counted]

end Mark

/-- The marks go with the lines, and the lines that count make the macros. -/
structure Marks (macros : MacroTable) (lines : List Line) (macros' : MacroTable)
    (marks : List Mark) : Prop where
  /-- Every line is marked once, in order. -/
  lines : marks.map (·.line) = lines
  /-- The macros are those that the counted lines leave. -/
  macros : (Mark.counted marks).foldlM Line.macrosAfter macros = .ok macros'

/-- Whatever marks there are go with the lines. -/
def Marked.Describes (macros : MacroTable) (lines : List Line) (r : Marked) : Prop :=
  ∀ macros' marks, r = .ok (macros', marks) → Marks macros lines macros' marks

namespace Marked

/-- A fault describes whatever lines there are. -/
theorem describes_error {m : MacroTable} {lines : List Line} (d : Diagnostic) :
    Describes m lines (.error d) := fun _ _ h => nomatch h

/-- Dead lines are described as such. -/
theorem describes_dead (m : MacroTable) (lines : List Line) :
    Describes m lines (dead m lines) := by
  rintro _ _ ⟨⟩
  constructor
  · exact Mark.lines_dead lines
  · rw [Mark.counted_dead]
    rfl

/-- A line is described by its mark. -/
theorem describes_mark (m : MacroTable) (l : Line) : Describes m [l] (l.mark m) := by
  intro m' marks h
  unfold Line.mark at h
  cases hl : l.macrosAfter m with
  | error d => simp only [hl, reduceCtorEq] at h
  | ok m₁ =>
    simp only [hl] at h
    obtain ⟨rfl, rfl⟩ := h
    constructor
    · rfl
    · show [l].foldlM Line.macrosAfter m = _
      rw [List.foldlM_cons, hl]
      rfl

/-- Lines are described in two parts. -/
theorem Describes.andThen {m : MacroTable} {lines lines' : List Line} {r : Marked}
    {after : MacroTable → Marked} (h : Describes m lines r)
    (hafter : ∀ m', Describes m' lines' (after m')) :
    Describes m (lines ++ lines') (r.andThen after) := by
  intro m₂ marks₂ hr
  unfold Marked.andThen at hr
  rcases r with d | ⟨m₁, marks⟩
  · cases hr
  · cases hlater : after m₁ with
    | error d => simp only [hlater, reduceCtorEq] at hr
    | ok r' =>
      simp only [hlater] at hr
      obtain ⟨rfl, rfl⟩ := hr
      have hfirst := h m₁ marks rfl
      have hsecond := hafter m₁ r'.1 r'.2 hlater
      constructor
      · rw [List.map_append, hfirst.lines, hsecond.lines]
      · rw [Mark.counted_append, List.foldlM_append, hfirst.macros]
        exact hsecond.macros

/-- A group is described by its branches, whichever of them is taken. -/
theorem Describes.choose {m : MacroTable} {l : Line} {body more : List Line}
    {taken others : MacroTable → Marked} (htaken : ∀ m', Describes m' body (taken m'))
    (hothers : ∀ m', Describes m' more (others m')) :
    Describes m (l :: body ++ more) (Branches.choose m l body taken more others) := by
  unfold Branches.choose
  split
  · exact describes_error _
  · exact ((describes_dead m [l]).andThen htaken).andThen fun m' => describes_dead m' more
  · exact (describes_dead m (l :: body)).andThen hothers

end Marked

mutual

/-- Marking a text marks each of its lines, and those that count make the macros. -/
theorem Blocks.describes_mark (m : MacroTable) :
    (b : Blocks) → Marked.Describes m b.lines (b.mark m)
  | .empty => Marked.describes_dead m []
  | .line l rest => (Marked.describes_mark m l).andThen fun m' => rest.describes_mark m'
  | .group _ body more rest =>
    (Marked.Describes.choose body.describes_mark more.describes_mark).andThen rest.describes_mark

/-- Marking branches does so too. -/
theorem Branches.describes_mark (m : MacroTable) :
    (b : Branches) → Marked.Describes m b.lines (b.mark m)
  | .endif l => Marked.describes_dead m [l]
  | .else l body endif =>
    ((Marked.describes_dead m [l]).andThen fun m' => body.describes_mark m').andThen
      fun m' => Marked.describes_dead m' [endif]
  | .elif _ body more => Marked.Describes.choose body.describes_mark more.describes_mark

end

end SmallC
