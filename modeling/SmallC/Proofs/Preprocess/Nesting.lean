import SmallC.Proofs.Preprocess.Groups

/-!
# Proper nesting

The lines of a text that opens and closes its groups properly form a tree. Whether
they do is first said line by line, with the groups that are open at each line, as a
run through the lines sees it; the tree is then found by cutting the lines at the line
that ends each branch.
-/

namespace SmallC

/-- Lines close the groups that are open before them. Of each open group, the innermost
first, it is known whether its last branch has begun. -/
def Nested : List Bool → List Line → Prop
  | groups, [] => groups = []
  | groups, l :: lines =>
    match l.role, groups with
    | .plain, groups => Nested groups lines
    | .opener, groups => Nested (false :: groups) lines
    | .elif, false :: outer => Nested (false :: outer) lines
    | .else, false :: outer => Nested (true :: outer) lines
    | .endif, _ :: outer => Nested outer lines
    | _, _ => False

/-- No line of the present branch is left. -/
def EndsBranch (lines : List Line) : Prop :=
  ∀ l ∈ lines.head?, l.role ≠ .plain ∧ l.role ≠ .opener

/-- A branch ends where there are no lines. -/
theorem EndsBranch.nil : EndsBranch [] := fun _ h => nomatch h

/-- What can follow the lines of an open branch. -/
theorem EndsBranch.cases {last : Bool} {outer : List Bool} {lines : List Line}
    (hlines : EndsBranch lines) (h : Nested (last :: outer) lines) :
    ∃ l rest, lines = l :: rest ∧
      (l.role = .endif ∧ Nested outer rest ∨
        last = false ∧ l.role = .else ∧ Nested (true :: outer) rest ∨
        last = false ∧ l.role = .elif ∧ Nested (false :: outer) rest) := by
  cases lines with
  | nil => cases h
  | cons l rest =>
    obtain ⟨hplain, hopener⟩ := hlines l rfl
    refine ⟨l, rest, rfl, ?_⟩
    cases hrole : l.role with
    | plain => exact absurd hrole hplain
    | opener => exact absurd hrole hopener
    | elif =>
      cases last with
      | false => exact .inr (.inr ⟨rfl, rfl, by simpa only [Nested, hrole] using h⟩)
      | true => simp only [Nested, hrole] at h
    | «else» =>
      cases last with
      | false => exact .inr (.inl ⟨rfl, rfl, by simpa only [Nested, hrole] using h⟩)
      | true => simp only [Nested, hrole] at h
    | endif => exact .inl ⟨rfl, by simpa only [Nested, hrole] using h⟩

/-- Nested lines start with a proper text that goes to the end of the present branch. -/
def StartsWithBlocks (lines : List Line) : Prop :=
  ∀ groups, Nested groups lines → ∃ b : Blocks, ∃ rest,
    b.Proper ∧ lines = b.lines ++ rest ∧ Nested groups rest ∧ EndsBranch rest

/-- Where the present branch of a group ends, nested lines start with its other branches. -/
def StartsWithBranches (lines : List Line) : Prop :=
  ∀ outer, Nested (false :: outer) lines → EndsBranch lines → ∃ b : Branches, ∃ rest,
    b.Proper ∧ lines = b.lines ++ rest ∧ Nested outer rest

/-- Lines start with blocks if all shorter ones behind the first do, both as blocks and as branches:
a group that opens there is made of these. -/
theorem startsWithBlocks_cons {l : Line} {lines : List Line}
    (hblocks : ∀ ls, ls.length ≤ lines.length → StartsWithBlocks ls)
    (hbranches : ∀ ls, ls.length ≤ lines.length → StartsWithBranches ls) :
    StartsWithBlocks (l :: lines) := by
  intro groups h
  by_cases hplain : l.role = .plain
  · simp only [Nested, hplain] at h
    obtain ⟨b, rest, hb, rfl, hrest, hend⟩ := hblocks lines (Nat.le_refl _) groups h
    exact ⟨.line l b, rest, ⟨hplain, hb⟩, rfl, hrest, hend⟩
  · by_cases hopener : l.role = .opener
    · simp only [Nested, hopener] at h
      obtain ⟨body, after, hbody, rfl, hafter, hend⟩ := hblocks lines (Nat.le_refl _) _ h
      rw [List.length_append] at hblocks hbranches
      obtain ⟨more, outside, hmore, rfl, houtside⟩ := hbranches after (by omega) _ hafter hend
      rw [List.length_append] at hblocks
      obtain ⟨b, rest, hb, rfl, hrest, hend'⟩ := hblocks outside (by omega) _ houtside
      refine ⟨.group l body more b, rest, ⟨hopener, hbody, hmore, hb⟩, ?_, hrest, hend'⟩
      simp only [Blocks.lines, List.cons_append, List.append_assoc]
    · refine ⟨.empty, l :: lines, trivial, rfl, h, ?_⟩
      rintro _ ⟨⟩
      exact ⟨hplain, hopener⟩

/-- Lines start with branches if all shorter ones behind the first do. -/
theorem startsWithBranches_cons {l : Line} {lines : List Line}
    (hblocks : ∀ ls, ls.length ≤ lines.length → StartsWithBlocks ls)
    (hbranches : ∀ ls, ls.length ≤ lines.length → StartsWithBranches ls) :
    StartsWithBranches (l :: lines) := by
  intro outer h hend
  obtain ⟨l, lines, heq, hl⟩ := hend.cases h
  obtain ⟨rfl, rfl⟩ := List.cons.inj heq
  rcases hl with ⟨hrole, h⟩ | ⟨-, hrole, h⟩ | ⟨-, hrole, h⟩
  · exact ⟨.endif l, lines, hrole, rfl, h⟩
  · obtain ⟨body, after, hbody, rfl, hafter, hend'⟩ := hblocks lines (Nat.le_refl _) _ h
    -- the last branch can only be ended by the end of its group
    obtain ⟨e, rest, rfl, he⟩ := hend'.cases hafter
    rcases he with ⟨herole, hrest⟩ | ⟨hlast, -⟩ | ⟨hlast, -⟩
    · refine ⟨.else l body e, rest, ⟨hrole, hbody, herole⟩, ?_, hrest⟩
      simp only [Branches.lines, List.cons_append, List.append_assoc, List.nil_append]
    · cases hlast
    · cases hlast
  · obtain ⟨body, after, hbody, rfl, hafter, hend'⟩ := hblocks lines (Nat.le_refl _) _ h
    rw [List.length_append] at hbranches
    obtain ⟨more, rest, hmore, rfl, hrest⟩ := hbranches after (by omega) _ hafter hend'
    refine ⟨.elif l body more, rest, ⟨hrole, hbody, hmore⟩, ?_, hrest⟩
    simp only [Branches.lines, List.cons_append, List.append_assoc]

/-- All lines start properly, by induction on their number: a group takes lines away
before what follows it is read. -/
theorem startsProperly (n : Nat) (lines : List Line) (hn : lines.length ≤ n) :
    StartsWithBlocks lines ∧ StartsWithBranches lines := by
  induction n generalizing lines with
  | zero =>
    obtain rfl := List.length_eq_zero_iff.mp (Nat.le_zero.mp hn)
    constructor
    · intro groups h
      exact ⟨.empty, [], trivial, rfl, h, .nil⟩
    · intro outer h
      cases h
  | succ n ih =>
    cases lines with
    | nil => exact ih [] (Nat.zero_le n)
    | cons l lines =>
      rw [List.length_cons] at hn
      have hblocks (ls : List Line) (hls : ls.length ≤ lines.length) := (ih ls (by omega)).1
      have hbranches (ls : List Line) (hls : ls.length ≤ lines.length) := (ih ls (by omega)).2
      exact ⟨startsWithBlocks_cons hblocks hbranches, startsWithBranches_cons hblocks hbranches⟩

/-- Lines that close all groups they open are the lines of a proper text. -/
theorem exists_proper_of_nested {lines : List Line} (h : Nested [] lines) :
    ∃ b : Blocks, b.Proper ∧ b.lines = lines := by
  obtain ⟨b, rest, hb, rfl, hrest, hend⟩ :=
    (startsProperly lines.length lines (Nat.le_refl _)).1 [] h
  cases rest with
  | nil => exact ⟨b, hb, (List.append_nil _).symm⟩
  | cons l rest =>
    obtain ⟨hplain, hopener⟩ := hend l rfl
    cases hrole : l.role <;> simp_all [Nested]

end SmallC
