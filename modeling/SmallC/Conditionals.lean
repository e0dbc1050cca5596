import SmallC.Position

/-!
# Conditional groups

The groups of lines that are open at some line, from the innermost to the
outermost. Each knows whether its present branch is active, whether one of its
branches so far was, and whether its last branch has begun. A line is live if all
open groups are active.
-/

namespace SmallC

/-- An open group. -/
structure ConditionalGroup where
  /-- The lines of the present branch belong to the text. -/
  active : Bool
  /-- The present branch or one before it is active, or the whole group is dead. -/
  taken : Bool
  /-- The present branch is the last one. -/
  isLast : Bool
  /-- The line that opened the group. -/
  location : Location
  deriving DecidableEq, Repr

/-- The open groups. -/
structure Conditionals where
  /-- The groups, the innermost first. -/
  groups : List ConditionalGroup
  /-- All groups are active. -/
  live : Bool
  deriving DecidableEq, Repr

namespace Conditionals

/-- No open group. -/
def none : Conditionals := ⟨[], true⟩

/-- All groups around the innermost one are active. -/
def outerLive (c : Conditionals) : Bool := c.groups.tail.all (·.active)

/-- A group opened among lines that are not live: none of its branches will be. -/
def openDead (c : Conditionals) (location : Location) : Conditionals :=
  ⟨⟨false, true, false, location⟩ :: c.groups, c.live⟩

/-- A group opened among live lines. -/
def openGroup (c : Conditionals) (active : Bool) (location : Location) : Conditionals :=
  let groups := ⟨active, active, false, location⟩ :: c.groups
  ⟨groups, groups.all (·.active)⟩

/-- The innermost group goes on with another branch. -/
def nextBranch (c : Conditionals) (active isLast : Bool) : Conditionals :=
  match c.groups with
  | [] => c
  | group :: outer =>
    let groups := ⟨active, group.taken || active, isLast, group.location⟩ :: outer
    ⟨groups, groups.all (·.active)⟩

/-- The innermost group is closed. -/
def close (c : Conditionals) : Conditionals :=
  ⟨c.groups.tail, c.groups.tail.all (·.active)⟩

end Conditionals

end SmallC
