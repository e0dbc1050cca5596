import SmallC.Proofs.Preprocess.Groups
import SmallC.Proofs.Preprocess.Step

/-!
# Open groups

The groups that are open at a line are kept as a stack of flags, and beside it is kept
whether the line is live. Six directives change the stack, each in its own way. Here it is
said once what a line may do to the stack, and from this it follows that the flags agree
with each other at each moment.
-/

namespace SmallC

/-- A line with which another branch of an open group begins. -/
def GroupRole.StartsBranch (role : GroupRole) : Prop := role = .elif ∨ role = .else
  deriving Decidable

namespace Conditionals

variable {c c' : Conditionals} {g : ConditionalGroup} {outer : List ConditionalGroup}
  {role : GroupRole}

/-- The flags of the open groups agree with each other. -/
structure Coherent (c : Conditionals) : Prop where
  /-- Lines are live if all groups are active. -/
  live_eq : c.live = c.groups.all (·.active)
  /-- A group that is active is known to have been active. -/
  taken_of_active : ∀ g ∈ c.groups, g.active = true → g.taken = true
  /-- Within a group that is not active no group is active, nor will be. -/
  dead_within : c.groups.Pairwise fun inside around =>
    around.active = false → inside.active = false ∧ inside.taken = true

/-- Where no group is open the flags are as they should be. -/
theorem coherent_none : none.Coherent := ⟨rfl, by simp [none], by simp [none]⟩

/-- What a line that is taken does to the open groups, given its role. -/
inductive Changes (c : Conditionals) : GroupRole → Conditionals → Prop
  | plain : Changes c .plain c
  | openDead (location : Location) : c.live = false → Changes c .opener (c.openDead location)
  | openGroup (active : Bool) (location : Location) : c.live = true →
    Changes c .opener (c.openGroup active location)
  | elif {g : ConditionalGroup} {outer : List ConditionalGroup} (active : Bool) :
    c.groups = g :: outer → g.isLast = false →
    (active = true → c.outerLive = true ∧ g.taken = false) →
    Changes c .elif (c.nextBranch active false)
  | else {g : ConditionalGroup} {outer : List ConditionalGroup} :
    c.groups = g :: outer → g.isLast = false →
    Changes c .else (c.nextBranch (c.outerLive && !g.taken) true)
  | endif {g : ConditionalGroup} {outer : List ConditionalGroup} : c.groups = g :: outer →
    Changes c .endif c.close

/-- Only the innermost group changes with its next branch. -/
theorem groups_nextBranch (h : c.groups = g :: outer) (active isLast : Bool) :
    (c.nextBranch active isLast).groups =
      ⟨active, g.taken || active, isLast, g.location⟩ :: outer := by
  rw [nextBranch, h]

/-- Whether all groups are active is counted again with each branch. -/
theorem live_nextBranch (h : c.groups = g :: outer) (active isLast : Bool) :
    (c.nextBranch active isLast).live = (c.nextBranch active isLast).groups.all (·.active) := by
  rw [nextBranch, h]

/-- The groups around the innermost one are all but the first. -/
theorem outerLive_eq (h : c.groups = g :: outer) : c.outerLive = outer.all (·.active) := by
  rw [outerLive, h, List.tail_cons]

/-- Where all groups are active, none is not. -/
theorem eq_true_of_mem {groups : List ConditionalGroup} (h : groups.all (·.active) = true)
    (hg : g ∈ groups) : g.active = true :=
  List.all_eq_true.mp h g hg

namespace Coherent

/-- A group may be put into other groups if it agrees with them. -/
theorem cons (hlive : c'.live = c'.groups.all (·.active)) (hgroups : c'.groups = g :: outer)
    (htaken : g.active = true → g.taken = true)
    (hdead : ∀ around ∈ outer, around.active = false → g.active = false ∧ g.taken = true)
    (houter : ∀ g ∈ outer, g.active = true → g.taken = true)
    (hwithin : outer.Pairwise fun inside around =>
      around.active = false → inside.active = false ∧ inside.taken = true) : c'.Coherent where
  live_eq := hlive
  taken_of_active := by
    rw [hgroups]
    exact List.forall_mem_cons.mpr ⟨htaken, houter⟩
  dead_within := by
    rw [hgroups]
    exact List.pairwise_cons.mpr ⟨hdead, hwithin⟩

/-- A group that is opened in a dead part is dead itself. -/
theorem openDead (h : c.Coherent) (hlive : c.live = false) (location : Location) :
    (c.openDead location).Coherent := by
  refine cons ?_ rfl (by simp) (by simp) h.taken_of_active h.dead_within
  simp [Conditionals.openDead, hlive]

/-- A group that is opened in a live part is as active as its condition says. -/
theorem openGroup (h : c.Coherent) (hlive : c.live = true) (active : Bool) (location : Location) :
    (c.openGroup active location).Coherent := by
  refine cons rfl rfl id (fun around haround hinactive => ?_) h.taken_of_active h.dead_within
  rw [h.live_eq] at hlive
  rw [eq_true_of_mem hlive haround] at hinactive
  cases hinactive

/-- The next branch of a group keeps the flags as they should be, if it is active only where the
groups around it are. -/
theorem nextBranch (h : c.Coherent) (hgroups : c.groups = g :: outer) {active : Bool}
    (hactive : active = true → c.outerLive = true) (isLast : Bool) :
    (c.nextBranch active isLast).Coherent := by
  have htaken := h.taken_of_active
  have hwithin := h.dead_within
  rw [hgroups] at htaken hwithin
  obtain ⟨-, houter⟩ := List.forall_mem_cons.mp htaken
  obtain ⟨hdead, hwithin⟩ := List.pairwise_cons.mp hwithin
  refine cons (live_nextBranch hgroups active isLast) (groups_nextBranch hgroups active isLast)
    (by simp +contextual) (fun around haround hinactive => ?_) houter hwithin
  obtain ⟨-, hg⟩ := hdead around haround hinactive
  refine ⟨?_, by simp [hg]⟩
  -- a branch may only be active if all groups around it are
  cases active with
  | false => rfl
  | true =>
    have hlive := hactive rfl
    rw [outerLive_eq hgroups] at hlive
    rw [eq_true_of_mem hlive haround] at hinactive
    cases hinactive

/-- Closing the innermost group keeps the flags as they should be. -/
theorem close (h : c.Coherent) : c.close.Coherent where
  live_eq := rfl
  taken_of_active g hg := h.taken_of_active g (List.mem_of_mem_tail hg)
  dead_within := h.dead_within.tail

/-- A line keeps the flags in agreement. -/
theorem changes (h : c.Coherent) (hchange : c.Changes role c') : c'.Coherent := by
  cases hchange with
  | plain => exact h
  | openDead location hlive => exact h.openDead hlive location
  | openGroup active location hlive => exact h.openGroup hlive active location
  | elif active hgroups _ hactive => exact h.nextBranch hgroups (fun ha => (hactive ha).1) false
  | «else» hgroups _ => exact h.nextBranch hgroups (fun ha => (Bool.and_eq_true_iff.mp ha).1) true
  | endif => exact h.close

end Coherent

end Conditionals

namespace Preprocess

variable {config : PreprocessConfig} {fs : FileSystem} {s s' : State} {line : Line}

/-! ## One line -/

/-- What the effect of a line does to the open groups: they change as the role of the line says,
or stay as they are if the line is a fault. -/
def Regroups (s : State) (role : GroupRole) (r : State × Except DirectiveFault Effect) : Prop :=
  match r.2 with
  | .ok _ => s.conditionals.Changes role r.1.conditionals
  | .error _ => r.1.conditionals = s.conditionals

/-- The effect of a line of no group does nothing to them. -/
theorem regroups_plain {r : State × Except DirectiveFault Effect}
    (h : r.1.conditionals = s.conditionals) : Regroups s .plain r := by
  unfold Regroups
  rw [h]
  split
  · exact .plain
  · rfl

/-- What is logged does not matter. -/
theorem Regroups.of_report {severity : Log.Severity} {message : String} {role : GroupRole}
    {r : State × Except DirectiveFault Effect} (h : Regroups (s.report severity message) role r) :
    Regroups s role r := h

/-- A directive with a condition opens a group. -/
theorem regroups_openGroup (s : State) (line : Line)
    (taken : Unit → Except DirectiveFault Bool) :
    Regroups s .opener (openGroup s line taken) := by
  unfold openGroup
  split
  · rename_i hlive
    split
    · exact rfl
    · exact .openGroup _ line.location hlive
  · rename_i hlive
    exact .openDead line.location (Bool.eq_false_iff.mpr hlive)

/-- An `#elif` starts a branch of the innermost group, or fails. -/
theorem regroups_elif (s : State) (arguments : List DirectiveToken.Placed) :
    Regroups s .elif (elif s arguments) := by
  unfold elif
  split
  · exact rfl
  · rename_i hgroups
    split
    · exact rfl
    · rename_i hlast
      have hlast := Bool.eq_false_iff.mpr hlast
      split
      · exact .elif false hgroups hlast (by simp)
      · rename_i hopen
        split
        · exact rfl
        · exact .elif _ hgroups hlast fun _ => by simpa [and_comm] using hopen

/-- An `#else` starts the last branch of the innermost group, or fails. -/
theorem regroups_otherwise (s : State) : Regroups s .else (otherwise s) := by
  unfold otherwise
  split
  · exact rfl
  · rename_i hgroups
    split
    · exact rfl
    · rename_i hlast
      exact .else hgroups (Bool.eq_false_iff.mpr hlast)

/-- An `#endif` closes the innermost group, or fails. -/
theorem regroups_endif (s : State) : Regroups s .endif (endif s) := by
  unfold endif
  split
  · exact rfl
  · rename_i hgroups
    exact .endif hgroups

/-- A definition changes no groups. -/
theorem conditionals_define (s : State) (line : Line) (arguments : List DirectiveToken.Placed) :
    (define s line arguments).1.conditionals = s.conditionals := by
  unfold define
  split <;> rfl

/-- An `#undef` changes no groups. -/
theorem conditionals_undef (s : State) (arguments : List DirectiveToken.Placed) :
    (undef s arguments).1.conditionals = s.conditionals := by
  unfold undef
  split <;> rfl

/-- Every directive changes the groups by its role, or fails and changes none. -/
theorem regroups_directive (config : PreprocessConfig) (fs : FileSystem) (s : State) (line : Line)
    (d : Directive) : Regroups s d.role (directive config fs s line d) := by
  cases d with
  | empty => exact regroups_plain rfl
  | define arguments =>
    refine regroups_plain ?_
    simp only [directive]
    split
    · exact conditionals_define s line arguments
    · rfl
  | undef arguments =>
    refine regroups_plain ?_
    simp only [directive]
    split
    · exact conditionals_undef s arguments
    · rfl
  | «include» target =>
    refine regroups_plain ?_
    simp only [directive]
    split <;> rfl
  | ifdef arguments =>
    rw [directive]
    exact regroups_openGroup s line _
  | ifndef arguments =>
    rw [directive]
    exact regroups_openGroup s line _
  | «if» arguments =>
    rw [directive]
    exact regroups_openGroup s line _
  | elif arguments => exact regroups_elif s arguments
  | «else» => exact regroups_otherwise s
  | endif => exact regroups_endif s
  | unknown name =>
    refine regroups_plain ?_
    simp only [directive]
    split <;> rfl

/-- A line changes the groups as its role says, or is a fault and leaves them as they are. -/
theorem regroups_step (config : PreprocessConfig) (fs : FileSystem) (s : State) (line : Line) :
    Regroups s line.role (step config fs s line) := by
  unfold step
  split
  · rename_i hline
    have hrole : line.role = .plain := by simp [Line.role, Line.directive?, hline]
    rw [hrole]
    exact regroups_plain rfl
  · rename_i d hline
    have hrole : line.role = d.role := by simp [Line.role, Line.directive?, hline]
    rw [hrole]
    split
    · exact (regroups_directive config fs (s.report _ _) line d).of_report
    · exact regroups_directive config fs s line d

/-- A line that is taken changes the groups by its role. -/
theorem changes_of_step {effect : Effect} (h : step config fs s line = (s', .ok effect)) :
    s.conditionals.Changes line.role s'.conditionals := by
  have hregroups := regroups_step config fs s line
  rw [h] at hregroups
  exact hregroups

/-- A line that fails changes no groups. -/
theorem conditionals_of_fault {fault : DirectiveFault}
    (h : step config fs s line = (s', .error fault)) : s'.conditionals = s.conditionals := by
  have hregroups := regroups_step config fs s line
  rw [h] at hregroups
  exact hregroups

end Preprocess

end SmallC
