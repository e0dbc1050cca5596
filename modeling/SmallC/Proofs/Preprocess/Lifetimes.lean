import Mathlib.Data.Nat.Count
import SmallC.Proofs.Preprocess.Moments
import SmallC.Proofs.Preprocess.OpenGroups

/-!
# From the opening of a group to its end

A group is opened by one line and closed by another, and in between a line may begin
another branch of it, at any depth of groups inside it. Here the lines that are taken one
after the other are looked at together. As long as a group is open the groups around it stay
as they are, at most one of its branches is active, and one of them is if the lines around
the group are live and its last branch has begun.
-/

namespace SmallC

namespace Conditionals

variable {c c' : Conditionals} {g : ConditionalGroup} {inner outer : List ConditionalGroup}
  {role : GroupRole}

/-- What becomes of an open group, which stands in the groups `outer` and has the groups
`inner` in it, at a line that does not close it. -/
inductive GoesOn (inner outer : List ConditionalGroup) (role : GroupRole) (g : ConditionalGroup) :
    ConditionalGroup → Prop
  | same : ¬ (inner = [] ∧ role.StartsBranch) → GoesOn inner outer role g g
  | branch (active isLast : Bool) : inner = [] → role.StartsBranch →
    (active = true → g.taken = false) →
    (role = .else → outer.all (·.active) = true → active = !g.taken) →
    GoesOn inner outer role g ⟨active, g.taken || active, isLast, g.location⟩

/-- The groups around a group that is not closed stay as they are. -/
theorem Changes.exists_goesOn (h : c.Changes role c') (hgroups : c.groups = inner ++ g :: outer)
    (hopen : outer.length < c'.groups.length) :
    ∃ inner' g', c'.groups = inner' ++ g' :: outer ∧ GoesOn inner outer role g g' := by
  cases h with
  | plain => exact ⟨inner, g, hgroups, .same (by simp [GroupRole.StartsBranch])⟩
  | openDead location =>
    exact ⟨_ :: inner, g, by simp only [Conditionals.openDead, hgroups, List.cons_append]; rfl,
      .same (by simp [GroupRole.StartsBranch])⟩
  | openGroup active location =>
    exact ⟨_ :: inner, g, by simp only [Conditionals.openGroup, hgroups, List.cons_append]; rfl,
      .same (by simp [GroupRole.StartsBranch])⟩
  | elif active hinnermost hlast hactive =>
    rw [hinnermost] at hgroups
    rw [groups_nextBranch hinnermost]
    cases inner with
    | nil =>
      obtain ⟨rfl, rfl⟩ := List.cons.inj hgroups
      exact ⟨[], _, rfl, .branch active false rfl (.inl rfl) (fun ha => (hactive ha).2) (by simp)⟩
    | cons a inner =>
      obtain ⟨rfl, rfl⟩ := List.cons.inj hgroups
      exact ⟨_ :: inner, g, rfl, .same (by simp)⟩
  | «else» hinnermost hlast =>
    have houter := outerLive_eq hinnermost
    rw [hinnermost] at hgroups
    rw [groups_nextBranch hinnermost]
    cases inner with
    | nil =>
      obtain ⟨rfl, rfl⟩ := List.cons.inj hgroups
      refine ⟨[], _, rfl, .branch _ true rfl (.inr rfl) (by simp) fun _ hlive => ?_⟩
      rw [houter, hlive, Bool.true_and]
    | cons a inner =>
      obtain ⟨rfl, rfl⟩ := List.cons.inj hgroups
      exact ⟨_ :: inner, g, rfl, .same (by simp)⟩
  | endif hinnermost =>
    rw [close, hgroups] at hopen ⊢
    cases inner with
    | nil => exact absurd hopen (Nat.lt_irrefl _)
    | cons a inner => exact ⟨inner, g, rfl, .same (by simp)⟩

/-- A line that begins another branch closes no group and opens none. -/
theorem Changes.length_eq (h : c.Changes role c') (hrole : role.StartsBranch) :
    c'.groups.length = c.groups.length := by
  cases h with
  | elif active hinnermost =>
    rw [groups_nextBranch hinnermost, hinnermost, List.length_cons, List.length_cons]
  | «else» hinnermost =>
    rw [groups_nextBranch hinnermost, hinnermost, List.length_cons, List.length_cons]
  | _ => simp [GroupRole.StartsBranch] at hrole

/-- What a line does that opens a group. -/
theorem Changes.exists_opened (h : c.Changes role c')
    (hopens : c'.groups.length = c.groups.length + 1) :
    ∃ g, c'.groups = g :: c.groups ∧ (g.active = true → g.taken = true) ∧
      (c.live = true → g.taken = g.active) := by
  cases h with
  | plain => omega
  | openDead location hlive =>
    exact ⟨_, rfl, by simp, fun h => absurd h (by simp [hlive])⟩
  | openGroup active location => exact ⟨_, rfl, id, fun _ => rfl⟩
  | elif active hinnermost hlast hactive =>
    have hlength := (Changes.elif active hinnermost hlast hactive).length_eq (.inl rfl)
    omega
  | «else» hinnermost hlast =>
    have hlength := (Changes.else hinnermost hlast).length_eq (.inr rfl)
    omega
  | endif hinnermost =>
    rw [close, List.length_tail] at hopens
    omega

end Conditionals

namespace Preprocess

variable {config : PreprocessConfig} {fs : FileSystem} {path : Path} {s s' : State} {line : Line}
  {done pending : List Line}

/-! ## One line after the other -/

/-- An `#include` that enters a file leaves the groups as they are. -/
theorem conditionals_of_enter {path : Path} (h : step config fs s line = (s', .ok (.enter path))) :
    s'.conditionals = s.conditionals := by
  obtain ⟨target, hline⟩ := exists_activeInclusion h
  rw [step_of_activeInclusion config fs hline] at h
  obtain ⟨rfl, -⟩ := Prod.mk.inj h
  rfl

/-- Opening a file opens and closes no groups. -/
theorem conditionals_openFile (fs : FileSystem) (s : State) (path : Path) :
    (openFile fs s path).1.conditionals = s.conditionals := by
  cases hread : fs.read path <;> simp [openFile, hread]

/-- Taking a line changes the groups as its role says, or leaves them as they are if it fails. -/
theorem changes_of_takeLine {r : Except Diagnostic (Line × List Line)}
    (h : takeLine config fs s line = (s', r)) :
    match r with
    | .ok _ => s.conditionals.Changes line.role s'.conditionals
    | .error _ => s'.conditionals = s.conditionals := by
  rw [takeLine] at h
  rcases hstep : step config fs s line with ⟨s₁, fault | effect⟩
  · rw [hstep] at h
    cases h
    exact conditionals_of_fault hstep
  have hchanges : s.conditionals.Changes line.role s₁.conditionals := changes_of_step hstep
  rw [hstep] at h
  cases effect with
  | keep =>
    cases h
    exact hchanges
  | blank =>
    cases h
    exact hchanges
  | enter path =>
    have hsame := conditionals_of_enter hstep
    have hopened := conditionals_openFile fs s₁ path
    dsimp only at h
    split at h
    · split at h
      · rename_i hopen
        rw [hopen] at hopened
        cases h
        exact hopened.trans hsame
      · rename_i hopen
        rw [hopen] at hopened
        cases h
        rw [← hopened] at hchanges
        exact hchanges
    · cases h
      exact hsame

/-- Lines that are taken one after the other, whatever lines they are. No group is open before
the first of them. -/
structure Passage (config : PreprocessConfig) (fs : FileSystem) where
  /-- How many lines are taken. -/
  length : ℕ
  /-- The lines. -/
  line : ℕ → Line
  /-- The state at each moment: before the line of this number, or behind all lines. -/
  state : ℕ → State
  /-- At first no group is open. -/
  start : (state 0).conditionals = Conditionals.none
  /-- Each line is taken at its moment, and leads to the next one. -/
  next : ∀ i < length, ∃ l new,
    takeLine config fs (state i) (line i) = (state (i + 1), .ok (l, new))

namespace Passage

variable (p : Passage config fs) (i j : ℕ)

/-- The groups that are open at a moment, the innermost first. -/
def groups : List ConditionalGroup := (p.state i).conditionals.groups

/-- The line of this number opens a group. -/
def Opens : Prop := i < p.length ∧ (p.groups (i + 1)).length = (p.groups i).length + 1

/-- The group that the line `i` opens is not closed before the moment `j`. -/
def IsOpen : Prop :=
  i < j ∧ j ≤ p.length ∧ ∀ m, i < m → m ≤ j → (p.groups i).length < (p.groups m).length

/-- The group that the line `i` opened, as it is at the moment `j`: the one that has as many
groups around it as there were at the line. -/
def group? : Option ConditionalGroup := (p.groups j).reverse[(p.groups i).length]?

/-- With the line `j` another branch of the group begins that the line `i` opened: it is the
innermost group there. -/
def StartsBranch : Prop :=
  i < j ∧ (p.groups j).length = (p.groups i).length + 1 ∧ (p.line j).role.StartsBranch

/-- Whether a line starts a branch of a group is decided by its role and the groups that are
open. -/
instance : DecidablePred (p.StartsBranch i) := fun j =>
  inferInstanceAs (Decidable (i < j ∧ (p.groups j).length = (p.groups i).length + 1 ∧
    (p.line j).role.StartsBranch))

/-- The number of the branch that the moment `j` is in, of the group that the line `i` opened;
the first branch has the number zero. -/
def branch : ℕ := Nat.count (p.StartsBranch i) j

/-- The branch of this number, of the group that the line `i` opened, is active at a moment
before the group is closed. -/
def ActiveBranch (number : ℕ) : Prop :=
  ∃ j, p.IsOpen i j ∧ p.branch i j = number ∧ ∃ g ∈ p.group? i j, g.active = true

/-- The last branch of the group that the line `i` opened begins before the group is closed. -/
def HasElse : Prop :=
  ∃ j, p.IsOpen i j ∧ j < p.length ∧ p.StartsBranch i j ∧ (p.line j).role = .else

/-! ## Moments -/

variable {p i j}

/-- Each line of a passage changes the groups by its role. -/
theorem changes (hi : i < p.length) :
    (p.state i).conditionals.Changes (p.line i).role (p.state (i + 1)).conditionals := by
  obtain ⟨l, new, htake⟩ := p.next i hi
  exact changes_of_takeLine htake

/-- The flags of the open groups agree at each moment. -/
theorem coherent (hi : i ≤ p.length) : (p.state i).conditionals.Coherent := by
  induction i with
  | zero =>
    rw [p.start]
    exact Conditionals.coherent_none
  | succ i ih => exact (ih (by omega)).changes (p.changes (by omega))

/-- They also agree behind a line that comes next, whether it can be taken or not. -/
theorem coherent_takeLine (hi : i ≤ p.length) (line : Line) :
    (takeLine config fs (p.state i) line).1.conditionals.Coherent := by
  have hcoherent := p.coherent hi
  rcases htake : takeLine config fs (p.state i) line with ⟨s, d | r⟩
  · have hsame : s.conditionals = (p.state i).conditionals := changes_of_takeLine htake
    rw [hsame]
    exact hcoherent
  · exact hcoherent.changes (changes_of_takeLine htake)

/-- A group that is open at a line was open at every line since its own. -/
theorem IsOpen.of_le {k : ℕ} (h : p.IsOpen i k) (hij : i < j) (hjk : j ≤ k) : p.IsOpen i j :=
  ⟨hij, hjk.trans h.2.1, fun m him hmj => h.2.2 m him (hmj.trans hjk)⟩

/-- The state of a group is found below the groups that were opened in it. -/
theorem group?_eq {inner : List ConditionalGroup} {g : ConditionalGroup}
    (h : p.groups j = inner ++ g :: p.groups i) : p.group? i j = some g := by
  rw [group?, h, List.reverse_append, List.reverse_cons, List.append_assoc,
    List.getElem?_append_right (by simp)]
  simp

/-- A line starts a branch of a group exactly if the group is the innermost one and the line says
so. -/
theorem startsBranch_iff {inner : List ConditionalGroup} {g : ConditionalGroup} (hij : i < j)
    (h : p.groups j = inner ++ g :: p.groups i) :
    p.StartsBranch i j ↔ inner = [] ∧ (p.line j).role.StartsBranch := by
  have hlength : (p.groups j).length = (p.groups i).length + 1 ↔ inner = [] := by
    rw [h, List.length_append, List.length_cons, ← List.length_eq_zero_iff]
    omega
  rw [StartsBranch, hlength]
  exact and_iff_right hij

/-- Induction on the moments at which a group is open: from the line that opens it, over the
lines that begin another branch of it and over all others. -/
theorem IsOpen.induction {motive : ℕ → ConditionalGroup → Prop} (hopens : p.Opens i)
    (opened : ∀ g, p.IsOpen i (i + 1) → p.group? i (i + 1) = some g →
      (g.active = true → g.taken = true) →
      ((p.state i).conditionals.live = true → g.taken = g.active) → motive (i + 1) g)
    (same : ∀ j g, p.group? i (j + 1) = some g → ¬ p.StartsBranch i j → motive j g →
      motive (j + 1) g)
    (branch : ∀ j g active isLast, p.IsOpen i (j + 1) →
      p.group? i (j + 1) = some ⟨active, g.taken || active, isLast, g.location⟩ →
      p.StartsBranch i j → (active = true → g.taken = false) →
      ((p.line j).role = .else → (p.groups i).all (·.active) = true → active = !g.taken) →
      motive j g → motive (j + 1) ⟨active, g.taken || active, isLast, g.location⟩)
    (h : p.IsOpen i j) : ∃ g, p.group? i j = some g ∧ motive j g := by
  -- the groups around the group stay as they are, so its place is known
  suffices hplace : ∃ inner g, p.groups j = inner ++ g :: p.groups i ∧ motive j g by
    obtain ⟨inner, g, hgroups, hmotive⟩ := hplace
    exact ⟨g, group?_eq hgroups, hmotive⟩
  induction j with
  | zero => exact absurd h.1 (Nat.not_lt_zero i)
  | succ j ih =>
    have hlength := h.2.1
    rcases Nat.lt_succ_iff_lt_or_eq.mp h.1 with hij | rfl
    · obtain ⟨inner, g, hgroups, hmotive⟩ := ih (h.of_le hij (Nat.le_succ j))
      obtain ⟨inner', g', hgroups', hgoes⟩ :=
        (p.changes hlength).exists_goesOn hgroups (h.2.2 _ h.1 le_rfl)
      refine ⟨inner', g', hgroups', ?_⟩
      have hstarts := startsBranch_iff hij hgroups
      cases hgoes with
      | same hsame => exact same j g (group?_eq hgroups') (mt hstarts.mp hsame) hmotive
      | branch active isLast hinner hrole hactive helse =>
        exact branch j g active isLast h (group?_eq hgroups') (hstarts.mpr ⟨hinner, hrole⟩)
          hactive helse hmotive
    · obtain ⟨g, hgroups, htaken, hlive⟩ := (p.changes hlength).exists_opened hopens.2
      have hfirst : p.groups (i + 1) = [] ++ g :: p.groups i := hgroups
      exact ⟨[], g, hfirst, opened g h (group?_eq hfirst) htaken hlive⟩

/-! ## Branches -/

/-- The branch goes on where no new one starts. -/
theorem branch_succ_of_not (h : ¬ p.StartsBranch i j) : p.branch i (j + 1) = p.branch i j := by
  rw [branch, Nat.count_succ, if_neg h, Nat.add_zero, branch]

/-- Once a branch was active no other branch will be. -/
theorem branch_eq_of_active {k : ℕ} {g h : ConditionalGroup} (hopens : p.Opens i)
    (hj : p.IsOpen i j) (hk : p.IsOpen i k) (hjk : j ≤ k) (hgj : p.group? i j = some g)
    (hgk : p.group? i k = some h) (hg : g.active = true) (hh : h.active = true) :
    p.branch i j = p.branch i k := by
  -- a group with a branch that was active is marked as taken, and only the branch that it is
  -- in may be active
  have hinvariant := IsOpen.induction (j := k)
    (motive := fun k h => (h.active = true → h.taken = true) ∧
      ∀ j ≤ k, ∀ g, p.IsOpen i j → p.group? i j = some g → g.active = true →
        h.taken = true ∧ (h.active = true → p.branch i j = p.branch i k)) hopens
    (fun g _ hfirst htaken _ => ?_) (fun k h hk hsame ih => ?_)
    (fun k h active isLast _ hk hstarts hactive _ ih => ?_) hk
  · obtain ⟨h', hh', -, hbranch⟩ := hinvariant
    obtain rfl : h = h' := Option.some.inj (hgk.symm.trans hh')
    exact (hbranch j hjk g hj hgj hg).2 hh
  · refine ⟨htaken, fun j hj g' hopen hg' hactive => ?_⟩
    obtain rfl : j = i + 1 := by have := hopen.1; omega
    obtain rfl : g = g' := Option.some.inj (hfirst.symm.trans hg')
    exact ⟨htaken hactive, fun _ => rfl⟩
  · refine ⟨ih.1, fun j hj g' hopen hg' hactive => ?_⟩
    rcases Nat.le_succ_iff.mp hj with hj | rfl
    · obtain ⟨htaken, hbranch⟩ := ih.2 j hj g' hopen hg' hactive
      exact ⟨htaken, fun ha => (hbranch ha).trans (branch_succ_of_not hsame).symm⟩
    · obtain rfl : h = g' := Option.some.inj (hk.symm.trans hg')
      exact ⟨ih.1 hactive, fun _ => rfl⟩
  · refine ⟨by simp +contextual, fun j hj g' hopen hg' hg'active => ?_⟩
    rcases Nat.le_succ_iff.mp hj with hj | rfl
    · obtain ⟨htaken, -⟩ := ih.2 j hj g' hopen hg' hg'active
      exact ⟨by simp [htaken], fun ha => absurd (hactive ha) (by simp [htaken])⟩
    · obtain rfl := Option.some.inj (hk.symm.trans hg')
      dsimp only at hg'active
      exact ⟨by simp [hg'active], fun _ => rfl⟩

/-- At most one branch of a group is ever active. -/
theorem ActiveBranch.eq {a b : ℕ} (hopens : p.Opens i) (ha : p.ActiveBranch i a)
    (hb : p.ActiveBranch i b) : a = b := by
  obtain ⟨j, hj, rfl, g, hgj, hg⟩ := ha
  obtain ⟨k, hk, rfl, h, hgk, hh⟩ := hb
  rcases Nat.le_total j k with hjk | hkj
  · exact branch_eq_of_active hopens hj hk hjk hgj hgk hg hh
  · exact (branch_eq_of_active hopens hk hj hkj hgk hgj hh hg).symm

/-- Among live lines a group is marked as taken only if one of its branches was active, and it is
marked so when its last branch has begun. -/
theorem exists_taken_iff (hopens : p.Opens i) (hlive : (p.groups i).all (·.active) = true)
    (hj : p.IsOpen i j) :
    ∃ g, p.group? i j = some g ∧ (g.taken = true → ∃ b, p.ActiveBranch i b) ∧
      ((∃ m < j, p.StartsBranch i m ∧ (p.line m).role = .else) → g.taken = true) := by
  refine IsOpen.induction (motive := fun j g => (g.taken = true → ∃ b, p.ActiveBranch i b) ∧
    ((∃ m < j, p.StartsBranch i m ∧ (p.line m).role = .else) → g.taken = true)) hopens
    (fun g hopen hfirst _ htaken => ⟨fun ht => ?_, ?_⟩)
    (fun j g _ hsame ih => ⟨ih.1, ?_⟩)
    (fun j g active isLast hopen hg hstarts _ helse ih => ⟨fun ht => ?_, ?_⟩) hj
  · have hcoherent := p.coherent (Nat.le_of_lt hopens.1)
    rw [htaken (hcoherent.live_eq.trans hlive)] at ht
    exact ⟨_, i + 1, hopen, rfl, g, hfirst, ht⟩
  · rintro ⟨m, hm, hstarts, -⟩
    have := hstarts.1
    omega
  · rintro ⟨m, hm, hstarts, hrole⟩
    rcases Nat.lt_succ_iff_lt_or_eq.mp hm with hm | rfl
    · exact ih.2 ⟨m, hm, hstarts, hrole⟩
    · exact absurd hstarts hsame
  · rcases Bool.or_eq_true_iff.mp ht with ht | ha
    · exact ih.1 ht
    · exact ⟨_, j + 1, hopen, rfl, _, hg, ha⟩
  · rintro ⟨m, hm, hm', hrole⟩
    rcases Nat.lt_succ_iff_lt_or_eq.mp hm with hm | rfl
    · have htaken := ih.2 ⟨m, hm, hm', hrole⟩
      simp [htaken]
    · rw [helse hrole hlive, Bool.or_not_self]

/-- If the lines around a group are live and its last branch has begun, one of its branches is
active before it is closed. -/
theorem exists_activeBranch (hopens : p.Opens i) (hlive : (p.groups i).all (·.active) = true)
    (helse : p.HasElse i) : ∃ b, p.ActiveBranch i b := by
  obtain ⟨j, hopen, hj, hstarts, hrole⟩ := helse
  have hnext : p.IsOpen i (j + 1) := by
    have hlength : (p.groups (j + 1)).length = (p.groups j).length :=
      (p.changes hj).length_eq hstarts.2.2
    refine ⟨hstarts.1.trans (Nat.lt_succ_self j), hj, fun m him hmj => ?_⟩
    rcases Nat.le_succ_iff.mp hmj with hmj | rfl
    · exact hopen.2.2 m him hmj
    · rw [hlength, hstarts.2.1]
      exact Nat.lt_succ_self _
  obtain ⟨g, -, hactive, htaken⟩ := exists_taken_iff hopens hlive hnext
  exact hactive (htaken ⟨j, Nat.lt_succ_self j, hstarts, hrole⟩)

/-! ## Runs -/

/-- One more line is taken at the end of a passage. -/
def snoc (p : Passage config fs) {line l : Line} {new : List Line} {s : State}
    (h : takeLine config fs (p.state p.length) line = (s, .ok (l, new))) :
    Passage config fs where
  length := p.length + 1
  line i := if i < p.length then p.line i else line
  state i := if i ≤ p.length then p.state i else s
  start := p.start
  next i hi := by
    rcases Nat.lt_succ_iff_lt_or_eq.mp hi with hi | rfl
    · simpa [hi, hi.le, Nat.succ_le_of_lt hi] using p.next i hi
    · exact ⟨l, new, by simpa [Nat.not_succ_le_self] using h⟩

/-- The state behind a passage and one more line. -/
theorem state_snoc (p : Passage config fs) {line l : Line} {new : List Line} {s : State}
    (h : takeLine config fs (p.state p.length) line = (s, .ok (l, new))) :
    (p.snoc h).state (p.snoc h).length = s := by
  simp [snoc]

end Passage

/-- Each moment of a run is the end of a passage. -/
theorem Reaches.exists_passage (h : Reaches config fs path s done pending) :
    ∃ p : Passage config fs, p.state p.length = s := by
  induction h with
  | @start s file texts hopen =>
    have hsame := conditionals_openFile fs (State.start config) path
    rw [hopen] at hsame
    exact ⟨⟨0, fun _ => default, fun _ => s, hsame, fun i hi => absurd hi (Nat.not_lt_zero i)⟩, rfl⟩
  | next _ htakes ih =>
    obtain ⟨p, rfl⟩ := ih
    have htaken := takes_iff.mp htakes
    exact ⟨p.snoc htaken, p.state_snoc htaken⟩

/-- Whatever lines are taken one after the other, in the run through a file or not, the flags of
the open groups agree with each other at each moment, and also behind a line that fails. From the
line that opens a group to the line that closes it at most one branch of the group is active, and
exactly one is if the groups around it are active and it has a last branch. -/
theorem coherent_and_existsUnique_activeBranch (config : PreprocessConfig) (fs : FileSystem) :
    (∀ path s done pending, Reaches config fs path s done pending →
      ∃ p : Passage config fs, p.state p.length = s) ∧
    ∀ p : Passage config fs,
      (∀ i ≤ p.length, (p.state i).conditionals.Coherent ∧
        ∀ line, (takeLine config fs (p.state i) line).1.conditionals.Coherent) ∧
      ∀ i, p.Opens i →
        (∀ a b, p.ActiveBranch i a → p.ActiveBranch i b → a = b) ∧
        ((p.groups i).all (·.active) = true → p.HasElse i → ∃! b, p.ActiveBranch i b) := by
  refine ⟨fun path s done pending h => h.exists_passage,
    fun p => ⟨fun i hi => ?_, fun i hopens => ?_⟩⟩
  · exact ⟨p.coherent hi, p.coherent_takeLine hi⟩
  · refine ⟨fun a b ha hb => ha.eq hopens hb, fun hlive helse => ?_⟩
    obtain ⟨b, hb⟩ := Passage.exists_activeBranch hopens hlive helse
    exact ⟨b, hb, fun a ha => ha.eq hopens hb⟩

/-- A line that is taken leaves a line and puts in others. -/
theorem exists_takeLine_eq {line : Line} (h : (takeLine config fs s line).2.isOk = true) :
    ∃ l new, takeLine config fs s line = ((takeLine config fs s line).1, .ok (l, new)) := by
  rcases htake : takeLine config fs s line with ⟨s', d | ⟨l, new⟩⟩
  · rw [htake] at h
    cases h
  · exact ⟨l, new, rfl⟩

/-- A group with three branches inside the last branch of another group. -/
def nestedLines : List Line :=
  Line.ofTexts 0 0 ["#ifdef A", "#else", "#ifndef B", "#elif 1/0", "#else", "#endif", "#endif"]

/-- The state behind the first of these lines. -/
def nestedState : ℕ → State
  | 0 => State.start ⟨[], [], 64⟩
  | i + 1 =>
    (takeLine ⟨[], [], 64⟩ ⟨fun _ => false, fun _ => .error .notFound⟩ (nestedState i)
      (nestedLines.getD i default)).1

/-- The lines can be taken, the division by zero being left alone. -/
def nested : Passage ⟨[], [], 64⟩ ⟨fun _ => false, fun _ => .error .notFound⟩ where
  length := 7
  line i := nestedLines.getD i default
  state := nestedState
  start := rfl
  next i hi := by
    have hok : ∀ i < 7, (takeLine ⟨[], [], 64⟩ ⟨fun _ => false, fun _ => .error .notFound⟩
        (nestedState i) (nestedLines.getD i default)).2.isOk = true := by decide +kernel
    exact exists_takeLine_eq (hok i hi)

/-- One branch of the inner group is active. -/
theorem existsUnique_activeBranch_nested :
    nested.Opens 2 ∧ (nested.groups 2).all (·.active) = true ∧ nested.HasElse 2 ∧
      ∃! b, nested.ActiveBranch 2 b := by
  have hopens : nested.Opens 2 := ⟨by decide, by decide +kernel⟩
  have hlive : (nested.groups 2).all (·.active) = true := by decide +kernel
  have hopen : ∀ m ≤ 4, 2 < m → (nested.groups 2).length < (nested.groups m).length := by
    decide +kernel
  have helse : nested.HasElse 2 :=
    ⟨4, ⟨by decide, by decide, fun m hm hm4 => hopen m hm4 hm⟩, by decide, by decide +kernel,
      by decide +kernel⟩
  exact ⟨hopens, hlive, helse, (((coherent_and_existsUnique_activeBranch _ _).2 nested).2 2
    hopens).2 hlive helse⟩

end Preprocess

end SmallC
