import SmallC.Proofs.Preprocess.Nesting
import SmallC.Proofs.Preprocess.Step

/-!
# Lines as they are run through

A run sees one line at a time and keeps the open groups on a stack. Here it is said what
a run does with each line of a text without `#include`: with a line of no group, where it
counts and where it does not, and with each line of a group.
-/

namespace SmallC.Preprocess

variable {config : PreprocessConfig} {fs : FileSystem} {files : Registry}
variable {m m' : MacroTable} {c c' c'' : Conditionals} {l : Line} {lines lines' : List Line}

/-- From the macros `m` and the groups `c`, a run goes through the lines as the marks say,
and then has the groups `c'` open; or it stops with their fault. What is logged on the
way is left open. -/
def Follows (config : PreprocessConfig) (fs : FileSystem) (files : Registry) (m : MacroTable)
    (c : Conditionals) (lines : List Line) (c' : Conditionals) : Marked → Prop
  | .error d => ∀ log, ∃ s, ∀ done rest,
    run config fs ⟨files, m, c, log⟩ done (lines ++ rest) = (s, .error d)
  | .ok (m', marks) => ∀ log, ∃ log', ∀ done rest,
    run config fs ⟨files, m, c, log⟩ done (lines ++ rest) =
      run config fs ⟨files, m', c', log'⟩ ((marks.map Mark.emitted).reverse ++ done) rest

/-- Behind a fault no lines are followed any more. -/
theorem Follows.stopped {d : Diagnostic} (h : Follows config fs files m c lines c' (.error d)) :
    Follows config fs files m c (lines ++ lines') c'' (.error d) := by
  intro log
  obtain ⟨s, hs⟩ := h log
  refine ⟨s, fun done rest => ?_⟩
  rw [List.append_assoc, hs]

/-- Lines are followed one part after the other, the second part from the macros that the first one
leaves. -/
theorem Follows.andThen {r : Marked} {after : MacroTable → Marked}
    (h : Follows config fs files m c lines c' r)
    (hafter : ∀ m', Follows config fs files m' c' lines' c'' (after m')) :
    Follows config fs files m c (lines ++ lines') c'' (r.andThen after) := by
  unfold Marked.andThen
  rcases r with d | ⟨m₁, marks⟩
  · exact h.stopped
  · have hlater := hafter m₁
    cases hr : after m₁ with
    | error d =>
      rw [hr] at hlater
      simp only [hr]
      intro log
      obtain ⟨log₁, hfirst⟩ := h log
      obtain ⟨s, hs⟩ := hlater log₁
      refine ⟨s, fun done rest => ?_⟩
      rw [List.append_assoc, hfirst, hs]
    | ok r =>
      rw [hr] at hlater
      simp only [hr]
      intro log
      obtain ⟨log₁, hfirst⟩ := h log
      obtain ⟨log₂, hsecond⟩ := hlater log₁
      refine ⟨log₂, fun done rest => ?_⟩
      rw [List.append_assoc, hfirst, hsecond, List.map_append, List.reverse_append,
        List.append_assoc]

/-- No lines are followed by doing nothing. -/
theorem follows_nil : Follows config fs files m c [] c (Marked.dead m []) :=
  fun log => ⟨log, fun _ _ => rfl⟩

/-- A line that is taken by itself. -/
theorem follows_of_step (effect : Effect) {mark : Mark}
    (hmark : mark.emitted = effect.emitted l) (henter : ∀ path, effect ≠ .enter path)
    (h : ∀ log, ∃ log', step config fs ⟨files, m, c, log⟩ l = (⟨files, m', c', log'⟩, .ok effect)) :
    Follows config fs files m c [l] c' (.ok (m', [mark])) := by
  intro log
  obtain ⟨log', hlog⟩ := h log
  refine ⟨log', fun done rest => ?_⟩
  rw [List.singleton_append, run_cons_of_step hlog henter, ← hmark]
  rfl

/-- A line at which a run always fails is followed as a fault. -/
theorem follows_of_fault {fault : DirectiveFault}
    (h : ∀ log, ∃ s, step config fs ⟨files, m, c, log⟩ l = (s, .error fault)) :
    Follows config fs files m c [l] c' (.error (.directive l.location fault)) := by
  intro log
  obtain ⟨s, hs⟩ := h log
  exact ⟨s, fun done rest => run_cons_of_fault hs done rest⟩

/-- A directive line does what its directive does. -/
theorem exists_step_eq {d : Directive} (hl : l.directive? = some d) (log : Array Log.Record) :
    ∃ log', step config fs ⟨files, m, c, log⟩ l = directive config fs ⟨files, m, c, log'⟩ l d := by
  rw [Line.directive?] at hl
  unfold step
  rw [hl]
  cases hname : d.name? with
  | none => exact ⟨log, by simp only [hname]⟩
  | some name => exact ⟨_, by simp only [hname]; rfl⟩

/-- A line that is always blanked is followed as a mark that is blank. -/
theorem follows_of_blank {mark : Mark} (hmark : mark.emitted = l.blank)
    (h : ∀ log, ∃ log', step config fs ⟨files, m, c, log⟩ l = (⟨files, m', c', log'⟩, .ok .blank)) :
    Follows config fs files m c [l] c' (.ok (m', [mark])) :=
  follows_of_step .blank hmark (fun _ h => nomatch h) h

/-- A directive that is always blanked is followed as a mark that is blank. -/
theorem follows_of_directive {d : Directive} {mark : Mark} (hl : l.directive? = some d)
    (hmark : mark.emitted = l.blank)
    (h : ∀ log, ∃ log', directive config fs ⟨files, m, c, log⟩ l d =
      (⟨files, m', c', log'⟩, .ok .blank)) :
    Follows config fs files m c [l] c' (.ok (m', [mark])) := by
  refine follows_of_blank hmark fun log => ?_
  obtain ⟨log₁, hstep⟩ := exists_step_eq (c := c) hl log
  obtain ⟨log₂, hdirective⟩ := h log₁
  exact ⟨log₂, hstep.trans hdirective⟩

/-- A directive that always fails is followed as a fault. -/
theorem follows_of_directive_fault {d : Directive} {fault : DirectiveFault}
    (hl : l.directive? = some d)
    (h : ∀ log, ∃ s, directive config fs ⟨files, m, c, log⟩ l d = (s, .error fault)) :
    Follows config fs files m c [l] c' (.error (.directive l.location fault)) := by
  refine follows_of_fault fun log => ?_
  obtain ⟨log₁, hstep⟩ := exists_step_eq (c := c) hl log
  obtain ⟨s, hdirective⟩ := h log₁
  exact ⟨s, hstep.trans hdirective⟩

/-- A line of no group that does not count becomes blank. -/
theorem follows_plain_of_dead (hrole : l.role = .plain) (hlive : c.live = false) :
    Follows config fs files m c [l] c (Marked.dead m [l]) := by
  cases hl : l.directive? with
  | none =>
    refine follows_of_blank rfl fun log => ⟨log, ?_⟩
    rw [Line.directive?] at hl
    simp only [step, hl, hlive]
    rfl
  | some d =>
    refine follows_of_directive hl rfl fun log => ⟨log, ?_⟩
    simp only [Line.role, hl] at hrole
    cases d with
    | empty => rfl
    | define | undef | «include» | unknown => simp [directive, hlive]
    | ifdef | ifndef | «if» | elif | «else» | endif => cases hrole

/-- A directive of no group that counts leaves the macros that it is said to leave. -/
theorem exists_directive_eq (config : PreprocessConfig) (fs : FileSystem) (files : Registry)
    (m : MacroTable) (l : Line) {d : Directive} (hrole : d.role = .plain) (hlive : c.live = true)
    (hinclude : ∀ target, d ≠ .include target) (hunknown : ∀ name, d ≠ .unknown name)
    (log : Array Log.Record) :
    ∃ log', directive config fs ⟨files, m, c, log⟩ l d =
      match d.macrosAfter m l.location with
      | .error fault => (⟨files, m, c, log'⟩, .error fault)
      | .ok m' => (⟨files, m', c, log'⟩, .ok .blank) := by
  cases d with
  | empty => exact ⟨log, rfl⟩
  | define arguments =>
    simp only [directive, hlive, if_true, define, Directive.macrosAfter]
    cases Directive.definition arguments with
    | error fault => exact ⟨log, rfl⟩
    | ok d => exact ⟨_, rfl⟩
  | undef arguments =>
    simp only [directive, hlive, if_true, undef, Directive.macrosAfter]
    cases Directive.undefined arguments with
    | error fault => exact ⟨log, rfl⟩
    | ok name => exact ⟨_, rfl⟩
  | «include» target => exact absurd rfl (hinclude target)
  | unknown name => exact absurd rfl (hunknown name)
  | ifdef | ifndef | «if» | elif | «else» | endif => cases hrole

/-- A line that is kept where all groups are active is followed as one that counts. -/
theorem follows_kept_of_live (hkept : l.isKept = true) (hlive : c.live = true) :
    Follows config fs files m c [l] c (.ok (m, [⟨l, true⟩])) := by
  have hmark : Mark.emitted ⟨l, true⟩ = l := by
    simp only [Mark.emitted, hkept, Bool.and_self, if_true]
  refine follows_of_step .keep hmark (fun _ h => nomatch h) fun log => ?_
  cases hl : l.directive? with
  | none =>
    rw [Line.directive?] at hl
    exact ⟨log, by simp only [step, hl, hlive, if_true]⟩
  | some d =>
    obtain ⟨log', hstep⟩ := exists_step_eq (c := c) hl log
    rw [hstep]
    cases d with
    | unknown name =>
      simp only [directive, hlive, if_true]
      exact ⟨_, rfl⟩
    | _ => simp only [Line.isKept, hl, Bool.false_eq_true] at hkept

/-- A line that is no directive, or an unknown one, counts and leaves the macros as they are. -/
theorem mark_of_isKept (m : MacroTable) (hkept : l.isKept = true) :
    l.mark m = .ok (m, [⟨l, true⟩]) := by
  unfold Line.mark Line.macrosAfter
  cases hl : l.directive? with
  | none => rfl
  | some d =>
    cases d with
    | unknown name => rfl
    | _ => simp only [Line.isKept, hl, Bool.false_eq_true] at hkept

/-- A line of no group that counts is marked so, and leaves its macros. -/
theorem follows_plain_of_live (hrole : l.role = .plain) (hinclude : l.isInclude = false)
    (hlive : c.live = true) : Follows config fs files m c [l] c (l.mark m) := by
  by_cases hkept : l.isKept = true
  · rw [mark_of_isKept m hkept]
    exact follows_kept_of_live hkept hlive
  · unfold Line.mark Line.macrosAfter
    cases hl : l.directive? with
    | none => simp only [Line.isKept, hl, not_true] at hkept
    | some d =>
      have hplain : d.role = .plain := by simpa [Line.role, hl] using hrole
      have hnoinclude (target : List Char) (heq : d = .include target) : False := by
        simp only [Line.isInclude, hl, heq, reduceCtorEq] at hinclude
      have hnounknown (name : String) (heq : d = .unknown name) : False := by
        simp only [Line.isKept, hl, heq, not_true] at hkept
      have hdirective (log : Array Log.Record) :=
        exists_directive_eq config fs files m l hplain hlive hnoinclude hnounknown log
      cases hmacros : d.macrosAfter m l.location with
      | error fault =>
        simp only [hmacros] at hdirective ⊢
        refine follows_of_directive_fault hl fun log => ?_
        obtain ⟨log', h⟩ := hdirective log
        exact ⟨_, h⟩
      | ok m' =>
        simp only [hmacros] at hdirective ⊢
        exact follows_of_directive hl (by simp [Mark.emitted, hkept]) hdirective

/-! ## The lines of a group -/

variable {g : ConditionalGroup} {outer : List ConditionalGroup}

/-- The open groups of a run: it is recorded truly whether all of them are active. -/
def opened (groups : List ConditionalGroup) : Conditionals := ⟨groups, groups.all (·.active)⟩

/-- A line that is not plain has a directive of its role. -/
theorem exists_directive_of_role {role : GroupRole} (hrole : l.role = role)
    (hplain : role ≠ .plain) : ∃ d, l.directive? = some d ∧ d.role = role := by
  unfold Line.role at hrole
  cases hl : l.directive? with
  | none =>
    rw [hl] at hrole
    exact absurd hrole.symm hplain
  | some d => exact ⟨d, rfl, by simpa [hl] using hrole⟩

/-- The condition of a line is that of its directive. -/
theorem condition_eq_ok {d : Directive} (hl : l.directive? = some d) {active : Bool}
    (h : l.condition m = .ok active) : d.condition m = .ok active := by
  rw [Line.condition, hl] at h
  cases hd : d.condition m with
  | error fault =>
    simp only [hd] at h
    cases h
  | ok b =>
    simp only [hd] at h
    cases h
    rfl

/-- A condition that fails fails with the fault of its directive, at the line. -/
theorem condition_eq_error {d : Directive} (hl : l.directive? = some d) {diagnostic : Diagnostic}
    (h : l.condition m = .error diagnostic) :
    ∃ fault, d.condition m = .error fault ∧ .directive l.location fault = diagnostic := by
  rw [Line.condition, hl] at h
  cases hd : d.condition m with
  | error fault =>
    simp only [hd] at h
    exact ⟨fault, rfl, Except.error.inj h⟩
  | ok b =>
    simp only [hd] at h
    cases h

/-- A directive that opens a group does what its condition says. -/
theorem directive_of_opener (s : State) {d : Directive} (hrole : d.role = .opener) :
    directive config fs s l d = openGroup s l fun _ => d.condition s.macros := by
  cases d with
  | ifdef | ifndef | «if» => rfl
  | _ => cases hrole

/-- An `#elif` before which no branch was taken does what its condition says. -/
theorem elif_of_undecided {s : State} (hgroups : s.conditionals.groups = g :: outer)
    (houter : outer.all (·.active) = true) (hlast : g.isLast = false) (htaken : g.taken = false)
    (arguments : List DirectiveToken.Placed) :
    elif s arguments =
      match (Directive.elif arguments).condition s.macros with
      | .error fault => (s, .error fault)
      | .ok active =>
        ({ s with conditionals := s.conditionals.nextBranch active false }, .ok .blank) := by
  unfold elif
  simp only [hgroups, hlast, htaken, Conditionals.outerLive, List.tail_cons, houter]
  rfl

/-- An opener that counts opens its group if its condition can be decided. -/
theorem follows_opener_of_live (hrole : l.role = .opener) (houter : outer.all (·.active) = true)
    {active : Bool} (h : l.condition m = .ok active) :
    Follows config fs files m (opened outer) [l]
      (opened (⟨active, active, false, l.location⟩ :: outer)) (Marked.dead m [l]) := by
  obtain ⟨d, hl, hd⟩ := exists_directive_of_role hrole (by decide)
  refine follows_of_directive hl rfl fun log => ⟨log, ?_⟩
  rw [directive_of_opener _ hd]
  simp only [openGroup, opened, houter, if_true, condition_eq_ok hl h]
  rfl

/-- A group whose condition fails is followed as that fault. -/
theorem follows_opener_fault (hrole : l.role = .opener) (houter : outer.all (·.active) = true)
    {d : Diagnostic} (h : l.condition m = .error d) :
    Follows config fs files m (opened outer) [l] c' (.error d) := by
  obtain ⟨d, hl, hd⟩ := exists_directive_of_role hrole (by decide)
  obtain ⟨fault, hfault, rfl⟩ := condition_eq_error hl h
  refine follows_of_directive_fault hl fun log => ⟨⟨files, m, opened outer, log⟩, ?_⟩
  rw [directive_of_opener _ hd]
  simp only [openGroup, opened, houter, if_true, hfault]

/-- An opener that does not count opens a group none of whose branches will. -/
theorem follows_opener_of_dead (hrole : l.role = .opener)
    (houter : outer.all (·.active) = false) :
    Follows config fs files m (opened outer) [l]
      (opened (⟨false, true, false, l.location⟩ :: outer)) (Marked.dead m [l]) := by
  obtain ⟨d, hl, hd⟩ := exists_directive_of_role hrole (by decide)
  refine follows_of_directive hl rfl fun log => ⟨log, ?_⟩
  rw [directive_of_opener _ hd]
  simp [openGroup, opened, houter, Conditionals.openDead]

/-- While no branch is taken, the condition of the next one is decided. -/
theorem follows_elif_of_live (hrole : l.role = .elif) (houter : outer.all (·.active) = true)
    (hlast : g.isLast = false) (htaken : g.taken = false) {active : Bool}
    (h : l.condition m = .ok active) :
    Follows config fs files m (opened (g :: outer)) [l]
      (opened (⟨active, active, false, g.location⟩ :: outer)) (Marked.dead m [l]) := by
  obtain ⟨d, hl, hd⟩ := exists_directive_of_role hrole (by decide)
  cases d with
  | elif arguments =>
    refine follows_of_directive hl rfl fun log => ⟨log, ?_⟩
    rw [directive, elif_of_undecided rfl houter hlast htaken, condition_eq_ok hl h]
    simp only [opened, Conditionals.nextBranch, htaken, Bool.false_or]
  | _ => cases hd

/-- An `#elif` whose condition is needed and fails is followed as that fault. -/
theorem follows_elif_fault (hrole : l.role = .elif) (houter : outer.all (·.active) = true)
    (hlast : g.isLast = false) (htaken : g.taken = false) {d : Diagnostic}
    (h : l.condition m = .error d) :
    Follows config fs files m (opened (g :: outer)) [l] c' (.error d) := by
  obtain ⟨d, hl, hd⟩ := exists_directive_of_role hrole (by decide)
  obtain ⟨fault, hfault, rfl⟩ := condition_eq_error hl h
  cases d with
  | elif arguments =>
    refine follows_of_directive_fault hl fun log => ⟨⟨files, m, opened (g :: outer), log⟩, ?_⟩
    rw [directive, elif_of_undecided rfl houter hlast htaken, hfault]
  | _ => cases hd

/-- Once a branch is taken, or where the group does not count, no further branch does. -/
theorem follows_elif_of_dead (hrole : l.role = .elif) (hlast : g.isLast = false)
    (hdead : g.taken = true ∨ outer.all (·.active) = false) :
    Follows config fs files m (opened (g :: outer)) [l]
      (opened (⟨false, g.taken, false, g.location⟩ :: outer)) (Marked.dead m [l]) := by
  obtain ⟨d, hl, hd⟩ := exists_directive_of_role hrole (by decide)
  cases d with
  | elif arguments =>
    refine follows_of_directive hl rfl fun log => ⟨log, ?_⟩
    rcases hdead with hdead | hdead <;>
      simp [directive, elif, opened, hlast, hdead, Conditionals.outerLive, Conditionals.nextBranch]
  | _ => cases hd

/-- An `#else` takes the last branch if no branch was taken before. -/
theorem follows_else (hrole : l.role = .else) (hlast : g.isLast = false) {active : Bool}
    (hactive : (outer.all (·.active) && !g.taken) = active) :
    Follows config fs files m (opened (g :: outer)) [l]
      (opened (⟨active, g.taken || active, true, g.location⟩ :: outer)) (Marked.dead m [l]) := by
  obtain ⟨d, hl, hd⟩ := exists_directive_of_role hrole (by decide)
  cases d with
  | «else» =>
    refine follows_of_directive hl rfl fun log => ⟨log, ?_⟩
    subst hactive
    simp only [directive, otherwise, opened, hlast]
    rfl
  | _ => cases hd

/-- An `#endif` closes its group. -/
theorem follows_endif (hrole : l.role = .endif) :
    Follows config fs files m (opened (g :: outer)) [l] (opened outer) (Marked.dead m [l]) := by
  obtain ⟨d, hl, hd⟩ := exists_directive_of_role hrole (by decide)
  cases d with
  | endif => exact follows_of_directive hl rfl fun log => ⟨log, rfl⟩
  | _ => cases hd

end SmallC.Preprocess
