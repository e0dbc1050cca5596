import SmallC.Proofs.Preprocess.Following
import SmallC.Proofs.Preprocess.OpenGroups
import SmallC.Proofs.Preprocess.Reuse

/-!
# Groups as they are run through

On a properly nested text without `#include`, a run does what the tree of the text says:
text that counts is marked as the tree marks it, and text that does not count is left
out, whatever stands in it. Conversely, a run that succeeds has closed all groups.
-/

namespace SmallC.Preprocess

variable {config : PreprocessConfig} {fs : FileSystem} {files : Registry}
variable {m m' : MacroTable} {c c' c'' : Conditionals} {l : Line} {lines lines' : List Line}

/-! ## Whole groups -/

/-- The lines are left out, whatever the macros are. -/
def Skips (config : PreprocessConfig) (fs : FileSystem) (files : Registry) (c : Conditionals)
    (lines : List Line) (c' : Conditionals) : Prop :=
  ∀ m, Follows config fs files m c lines c' (Marked.dead m lines)

/-- Lines that are passed over one after the other. -/
theorem Skips.append (h : Skips config fs files c lines c')
    (h' : Skips config fs files c' lines' c'') : Skips config fs files c (lines ++ lines') c'' := by
  intro m
  have hdead : Marked.dead m (lines ++ lines') =
      (Marked.dead m lines).andThen (Marked.dead · lines') := by
    simp [Marked.andThen, Marked.dead, Mark.dead]
  rw [hdead]
  exact (h m).andThen h'

mutual

/-- Text that does not count is left out, and its groups are closed behind it. -/
theorem skips_blocks {outer : List ConditionalGroup} (houter : outer.all (·.active) = false) :
    (b : Blocks) → b.Proper → Skips config fs files (opened outer) b.lines (opened outer)
  | .empty, _ => fun _ => follows_nil
  | .line l rest, ⟨hrole, hrest⟩ => by
    have hline : Skips config fs files (opened outer) [l] (opened outer) :=
      fun _ => follows_plain_of_dead hrole houter
    have hafter : Skips config fs files (opened outer) rest.lines (opened outer) :=
      skips_blocks houter rest hrest
    exact hline.append hafter
  | .group opener body more rest, ⟨hrole, hbody, hmore, hrest⟩ => by
    have hopener : Skips config fs files (opened outer) [opener]
        (opened (⟨false, true, false, opener.location⟩ :: outer)) :=
      fun _ => follows_opener_of_dead hrole houter
    have hinside : Skips config fs files (opened (⟨false, true, false, opener.location⟩ :: outer))
        body.lines (opened (⟨false, true, false, opener.location⟩ :: outer)) :=
      skips_blocks rfl body hbody
    have hbranches : Skips config fs files
        (opened (⟨false, true, false, opener.location⟩ :: outer)) more.lines (opened outer) :=
      skips_branches rfl (.inl rfl) more hmore
    have hafter : Skips config fs files (opened outer) rest.lines (opened outer) :=
      skips_blocks houter rest hrest
    exact ((hopener.append hinside).append hbranches).append hafter

/-- So are further branches of a group that does not count or has a branch taken. -/
theorem skips_branches {g : ConditionalGroup} {outer : List ConditionalGroup}
    (hlast : g.isLast = false)
    (hdead : g.taken = true ∨ outer.all (·.active) = false) :
    (b : Branches) → b.Proper → Skips config fs files (opened (g :: outer)) b.lines (opened outer)
  | .endif _, hrole => fun _ => follows_endif hrole
  | .else l body endif, ⟨hrole, hbody, hend⟩ => by
    have hactive : (outer.all (·.active) && !g.taken) = false := by
      rcases hdead with hdead | hdead <;> simp [hdead]
    have helse : Skips config fs files (opened (g :: outer)) [l]
        (opened (⟨false, g.taken || false, true, g.location⟩ :: outer)) :=
      fun _ => follows_else hrole hlast hactive
    have hinside : Skips config fs files
        (opened (⟨false, g.taken || false, true, g.location⟩ :: outer)) body.lines
        (opened (⟨false, g.taken || false, true, g.location⟩ :: outer)) :=
      skips_blocks rfl body hbody
    have hendif (last : ConditionalGroup) :
        Skips config fs files (opened (last :: outer)) [endif] (opened outer) :=
      fun _ => follows_endif hend
    exact (helse.append hinside).append (hendif _)
  | .elif l body more, ⟨hrole, hbody, hmore⟩ => by
    have helif : Skips config fs files (opened (g :: outer)) [l]
        (opened (⟨false, g.taken, false, g.location⟩ :: outer)) :=
      fun _ => follows_elif_of_dead hrole hlast hdead
    have hinside : Skips config fs files
        (opened (⟨false, g.taken, false, g.location⟩ :: outer)) body.lines
        (opened (⟨false, g.taken, false, g.location⟩ :: outer)) :=
      skips_blocks rfl body hbody
    have hbranches : Skips config fs files
        (opened (⟨false, g.taken, false, g.location⟩ :: outer)) more.lines (opened outer) :=
      skips_branches (g := ⟨false, g.taken, false, g.location⟩) rfl hdead more hmore
    exact (helif.append hinside).append hbranches

end

/-- Choosing between a branch and the branches after it. The group is open as `before`,
and after the branch's line as `within active`. -/
theorem follows_choose (m : MacroTable) (within : Bool → Conditionals) {before : Conditionals}
    {body more : List Line} {taken others : MacroTable → Marked}
    (hline : ∀ active, l.condition m = .ok active →
      Follows config fs files m before [l] (within active) (Marked.dead m [l]))
    (hfault : ∀ d, l.condition m = .error d → Follows config fs files m before [l] c (.error d))
    (htaken : ∀ m, Follows config fs files m (within true) body (within true) (taken m))
    (hmore : Skips config fs files (within true) more c)
    (hbody : Skips config fs files (within false) body (within false))
    (hothers : ∀ m, Follows config fs files m (within false) more c (others m)) :
    Follows config fs files m before (l :: body ++ more) c
      (Branches.choose m l body taken more others) := by
  unfold Branches.choose
  cases hcondition : l.condition m with
  | error d =>
    show Follows config fs files m before ([l] ++ (body ++ more)) c (.error d)
    exact (hfault d hcondition).stopped
  | ok active =>
    have hskip : Follows config fs files m before [l] (within active) (Marked.dead m [l]) :=
      hline active hcondition
    cases active with
    | true => exact (hskip.andThen htaken).andThen hmore
    | false => exact (hskip.andThen hbody).andThen hothers

/-- The text has no `#include`. -/
def IncludeFree (lines : List Line) : Prop := ∀ l ∈ lines, l.isInclude = false

/-- Lines are free of inclusions in two parts. -/
theorem includeFree_append :
    IncludeFree (lines ++ lines') ↔ IncludeFree lines ∧ IncludeFree lines' :=
  List.forall_mem_append

/-- Lines are free of inclusions one by one. -/
theorem includeFree_cons : IncludeFree (l :: lines) ↔ l.isInclude = false ∧ IncludeFree lines :=
  List.forall_mem_cons

mutual

/-- Text that counts is marked as its tree says, and its groups are closed behind it. -/
theorem follows_blocks {outer : List ConditionalGroup} (houter : outer.all (·.active) = true) :
    (b : Blocks) → b.Proper → IncludeFree b.lines → ∀ m,
      Follows config fs files m (opened outer) b.lines (opened outer) (b.mark m)
  | .empty, _, _, _ => follows_nil
  | .line l rest, ⟨hrole, hrest⟩, hfree, m => by
    obtain ⟨hl, hfree⟩ := includeFree_cons.mp hfree
    have hline : Follows config fs files m (opened outer) [l] (opened outer) (l.mark m) :=
      follows_plain_of_live hrole hl houter
    exact hline.andThen (follows_blocks houter rest hrest hfree)
  | .group opener body more rest, ⟨hrole, hbody, hmore, hrest⟩, hfree, m => by
    obtain ⟨hfree, hfreerest⟩ := includeFree_append.mp hfree
    obtain ⟨hfree, hfreemore⟩ := includeFree_append.mp hfree
    obtain ⟨-, hfreebody⟩ := includeFree_cons.mp hfree
    have hgroup := follows_choose m
      (fun active => opened (⟨active, active, false, opener.location⟩ :: outer))
      (fun active h => follows_opener_of_live hrole houter h)
      (fun d h => follows_opener_fault hrole houter h)
      (follows_blocks (by simp [houter]) body hbody hfreebody)
      (skips_branches rfl (.inl rfl) more hmore)
      (skips_blocks rfl body hbody)
      (follows_branches rfl rfl houter more hmore hfreemore)
    exact hgroup.andThen (follows_blocks houter rest hrest hfreerest)

/-- Among the branches of a group none of which is taken yet, one is chosen as the tree
says. -/
theorem follows_branches {g : ConditionalGroup} {outer : List ConditionalGroup}
    (hlast : g.isLast = false) (htaken : g.taken = false)
    (houter : outer.all (·.active) = true) :
    (b : Branches) → b.Proper → IncludeFree b.lines → ∀ m,
      Follows config fs files m (opened (g :: outer)) b.lines (opened outer) (b.mark m)
  | .endif _, hrole, _, _ => follows_endif hrole
  | .else l body endif, ⟨hrole, hbody, hend⟩, hfree, m => by
    obtain ⟨hfree, -⟩ := includeFree_append.mp hfree
    obtain ⟨-, hfreebody⟩ := includeFree_cons.mp hfree
    have hactive : (outer.all (·.active) && !g.taken) = true := by simp [houter, htaken]
    have helse : Follows config fs files m (opened (g :: outer)) [l]
        (opened (⟨true, g.taken || true, true, g.location⟩ :: outer)) (Marked.dead m [l]) :=
      follows_else hrole hlast hactive
    have hinside (m : MacroTable) : Follows config fs files m
        (opened (⟨true, g.taken || true, true, g.location⟩ :: outer)) body.lines _ (body.mark m) :=
      follows_blocks (by simp [houter]) body hbody hfreebody m
    exact (helse.andThen hinside).andThen fun _ => follows_endif hend
  | .elif l body more, ⟨hrole, hbody, hmore⟩, hfree, m => by
    obtain ⟨hfree, hfreemore⟩ := includeFree_append.mp hfree
    obtain ⟨-, hfreebody⟩ := includeFree_cons.mp hfree
    exact follows_choose m (fun active => opened (⟨active, active, false, g.location⟩ :: outer))
      (fun active h => follows_elif_of_live hrole houter hlast htaken h)
      (fun d h => follows_elif_fault hrole houter hlast htaken h)
      (follows_blocks (by simp [houter]) body hbody hfreebody)
      (skips_branches rfl (.inl rfl) more hmore)
      (skips_blocks rfl body hbody)
      (follows_branches rfl rfl houter more hmore hfreemore)

end

/-! ## Runs that succeed -/

/-- Of each open group, whether its last branch has begun. -/
def State.lasts (s : State) : List Bool := s.conditionals.groups.map (·.isLast)

/-- A line that is no fault stands where a line of its role may stand. -/
theorem nested_of_changes {role : GroupRole} (hrole : l.role = role) (h : c.Changes role c')
    (hlines : Nested (c'.groups.map (·.isLast)) lines) :
    Nested (c.groups.map (·.isLast)) (l :: lines) := by
  cases h with
  | plain => simpa only [Nested, hrole] using hlines
  | openDead location _ =>
    simpa only [Conditionals.openDead, List.map_cons, Nested, hrole] using hlines
  | openGroup active location _ =>
    simpa only [Conditionals.openGroup, List.map_cons, Nested, hrole] using hlines
  | elif active hgroups hlast _ =>
    rw [Conditionals.groups_nextBranch hgroups] at hlines
    simpa only [hgroups, List.map_cons, hlast, Nested, hrole] using hlines
  | «else» hgroups hlast =>
    rw [Conditionals.groups_nextBranch hgroups] at hlines
    simpa only [hgroups, List.map_cons, hlast, Nested, hrole] using hlines
  | endif hgroups =>
    simpa only [Conditionals.close, hgroups, List.map_cons, List.tail_cons, Nested, hrole]
      using hlines

/-- A line that is no inclusion enters no file. -/
theorem activeInclusion?_of_isInclude (s : State) (h : l.isInclude = false) :
    activeInclusion? s l = none := by
  unfold activeInclusion?
  unfold Line.isInclude Line.directive? at h
  split
  · rename_i target hl
    simp only [hl, Bool.true_eq_false] at h
  · rfl

/-- A text that a run gets through closes all groups that it opens. -/
theorem nested_of_run (hfree : IncludeFree lines) {s s' : State} {done out : List Line}
    (h : run config fs s done lines = (s', .ok out)) : Nested s.lasts lines := by
  induction lines generalizing s done with
  | nil =>
    rw [run] at h
    cases hgroups : s.conditionals.groups with
    | nil => simp only [Nested, State.lasts, hgroups, List.map_nil]
    | cons g outer => simp only [hgroups, Prod.mk.injEq, reduceCtorEq, and_false] at h
  | cons l lines ih =>
    obtain ⟨hl, hfree⟩ := includeFree_cons.mp hfree
    have hline := activeInclusion?_of_isInclude s hl
    cases hstep : step config fs s l with
    | mk s₁ r =>
      cases r with
      | error fault =>
        rw [run_cons_of_fault hstep, Prod.mk.injEq] at h
        exact absurd h.2 (by simp)
      | ok effect =>
        rw [run_cons_of_none hline hstep] at h
        exact nested_of_changes rfl (changes_of_step hstep) (ih hfree h)

/-- Preprocessing a file that can be read is a run through its lines, from nothing but the macros of
the configuration. -/
theorem preprocess_eq_run (config : PreprocessConfig) {fs : FileSystem} {path : Path}
    {source : String} (hread : fs.read path = .ok source) :
    preprocess config fs path =
      conclude path (run config fs ⟨⟨#[path]⟩, (State.start config).macros, opened [], #[]⟩ []
        (Line.ofTexts 0 0 (lineTexts source))) := by
  simp only [preprocess, openFile, State.register_start, hread]
  rfl

/-- Without `#include`, a file is preprocessed successfully only if it closes all groups that it
opens. -/
theorem nested_of_preprocess {config : PreprocessConfig} {fs : FileSystem} {path : Path}
    {source : String} {text : LogicalText} (hread : fs.read path = .ok source)
    (hfree : IncludeFree (Line.ofTexts 0 0 (lineTexts source)))
    (htext : (preprocess config fs path).result = .ok text) :
    Nested [] (Line.ofTexts 0 0 (lineTexts source)) := by
  rw [preprocess_eq_run config hread] at htext
  cases hresult : run config fs ⟨⟨#[path]⟩, (State.start config).macros, opened [], #[]⟩ []
      (Line.ofTexts 0 0 (lineTexts source)) with
  | mk s r =>
    cases r with
    | error d =>
      rw [hresult] at htext
      cases htext
    | ok out => exact nested_of_run hfree hresult

/-- Without `#include`, a preprocessor gets through a file only if its groups nest properly, and
then the tree of its groups says what becomes of it, whatever was run before. -/
theorem run_eq_mark (p : Preprocessor) (fs : FileSystem) (path : Path) {source : String}
    (hread : fs.read path = .ok source)
    (hfree : IncludeFree (Line.ofTexts 0 0 (lineTexts source))) :
    (∀ text, (p.run fs path).2 = .ok text →
      ∃ b : Blocks, b.Proper ∧ b.lines = Line.ofTexts 0 0 (lineTexts source)) ∧
    ∀ b : Blocks, b.Proper → b.lines = Line.ofTexts 0 0 (lineTexts source) →
      match b.mark (State.start p.config).macros with
      | .error d => (p.run fs path).2 = .error d
      | .ok (macros, marks) =>
        Marks (State.start p.config).macros b.lines macros marks ∧
        (p.run fs path).1.macros = macros ∧
        (p.run fs path).2 = .ok ⟨(marks.map Mark.emitted).toArray, ⟨#[path]⟩⟩ := by
  have hmacros := congrArg Outcome.macros (Preprocessor.outcome_run p fs path)
  change (p.run fs path).1.macros = _ at hmacros
  have hrun := preprocess_eq_run p.config hread
  rw [← Preprocessor.result_run, hmacros]
  constructor
  · intro text htext
    exact exists_proper_of_nested (nested_of_preprocess hread hfree htext)
  · intro b hb hlines
    rw [← hlines] at hrun hfree
    have hfollows : Follows p.config fs ⟨#[path]⟩ (State.start p.config).macros (opened [])
        b.lines (opened []) (b.mark (State.start p.config).macros) :=
      follows_blocks rfl b hb hfree (State.start p.config).macros
    have hmarks := b.describes_mark (State.start p.config).macros
    cases hmark : b.mark (State.start p.config).macros with
    | error d =>
      rw [hmark] at hfollows
      obtain ⟨s, hs⟩ := hfollows #[]
      have hlast := hs [] []
      rw [List.append_nil] at hlast
      simp only [hrun, hlast]
      rfl
    | ok r =>
      rw [hmark] at hfollows
      obtain ⟨log, hlog⟩ := hfollows #[]
      have hlast := hlog [] []
      simp only [List.append_nil, run, opened, List.reverse_reverse] at hlast
      refine ⟨hmarks r.1 r.2 hmark, ?_, ?_⟩
      · rw [hrun, opened, hlast]
        rfl
      · rw [hrun, opened, hlast]
        rfl

end SmallC.Preprocess
