import SmallC.Proofs.Parse.Declarations
import SmallC.Proofs.Parse.Reading

/-!
# From declarations to programs

Declarations that close every body they open are those of a program. Which tokens spell
a program can therefore be said by its declarations, as they are read one after the
other.
-/

namespace SmallC

/-- Declarations close the bodies that they open, and as many bodies as are open before
them. -/
def Nests : Nat → List Declaration → Prop
  | depth, [] => depth = 0
  | depth, .definition _ :: ds => Nests (depth + 1) ds
  | 0, .close _ :: _ => False
  | depth + 1, .close _ :: ds => Nests depth ds
  | depth, .variable _ _ _ :: ds | depth, .prototype _ :: ds | depth, .assembly _ :: ds =>
    Nests depth ds

/-! ## Entering declarations that close every body -/

namespace Environment

variable {e e' : Environment} {d : Declaration} {ds : List Declaration}

/-- A variable stays in its body. -/
theorem depth_of_declareVariable {type : TypeSpec} {name : Token} {initializer : Option Token}
    (h : e.declareVariable type name initializer = .ok e') : e'.depth = e.depth := by
  rw [declareVariable] at h
  split at h
  · cases h
  split at h
  · cases h
  split at h
  · cases h
  dsimp only at h
  split at h
  · cases h
  · cases h
    rfl

/-- A block of assembly stays in its body. -/
theorem depth_of_addAssembly {sources : List Token} (h : e.addAssembly sources = .ok e') :
    e'.depth = e.depth := by
  simp only [addAssembly] at h
  split at h
  · cases h
  split at h
  · cases h
  · cases h
    rfl

/-- A function that is defined goes one body deeper. -/
theorem depth_of_openFunction {h : FunctionHeader} {place : Option Nat}
    (hopen : e.openFunction h place = .ok e') : e'.depth = e.depth + 1 := by
  simp only [openFunction] at hopen
  split at hopen
  · cases hopen
  · cases hopen
    rfl

/-- A brace goes one body out. -/
theorem depth_of_closeBody {brace : Token} (h : e.closeBody brace = .ok e') :
    e.depth = e'.depth + 1 := by
  unfold depth
  simp only [closeBody] at h
  split at h
  · cases h
  · rename_i houter
    rw [houter]
    cases h
    rfl

/-- What opens and closes bodies is nested properly if it ends outside of all of them. -/
theorem nests_of_enters (h : e.Enters ds e') (hend : e'.depth = 0) : Nests e.depth ds := by
  induction ds generalizing e with
  | nil =>
    obtain rfl := h
    exact hend
  | cons d ds ih =>
    obtain ⟨e₁, hd, hds⟩ := h
    have hnests : Nests e₁.depth ds := ih hds
    cases d with
    | «variable» type name initializer =>
      rw [depth_of_declareVariable hd] at hnests
      exact hnests
    | prototype h =>
      obtain ⟨-, rfl⟩ := hd
      exact hnests
    | definition h =>
      obtain ⟨place, -, hopen⟩ := hd
      rw [depth_of_openFunction hopen] at hnests
      exact hnests
    | assembly sources =>
      rw [depth_of_addAssembly hd] at hnests
      exact hnests
    | close brace =>
      rw [depth_of_closeBody hd]
      exact hnests

end Environment

/-! ## Finding the program -/

/-- No declaration of the present body is left. -/
def EndsBody (depth : Nat) (ds : List Declaration) : Prop :=
  depth = 0 ∧ ds = [] ∨
    ∃ outer brace after, depth = outer + 1 ∧ ds = .close brace :: after ∧ Nests outer after

/-- Nested declarations start with a program that goes to the end of the present body. -/
def StartsWithProgram (ds : List Declaration) : Prop :=
  ∀ depth, Nests depth ds → ∃ p : Program, ∃ inside after,
    p.Lists inside ∧ ds = inside ++ after ∧ EndsBody depth after

/-- Declarations start with a program if all shorter lists behind the first one do: the body of a
definition is one of these. -/
theorem startsWithProgram_cons {d : Declaration} {ds : List Declaration}
    (hprograms : ∀ ds', ds'.length ≤ ds.length → StartsWithProgram ds') :
    StartsWithProgram (d :: ds) := by
  intro depth h
  have hrest : StartsWithProgram ds := hprograms ds (Nat.le_refl _)
  cases d with
  | «variable» type name initializer =>
    obtain ⟨p, inside, after, hp, rfl, hend⟩ := hrest depth (by simpa only [Nests] using h)
    exact ⟨.variable type name initializer p, _, after, ⟨inside, hp, rfl⟩, rfl, hend⟩
  | prototype header =>
    obtain ⟨p, inside, after, hp, rfl, hend⟩ := hrest depth (by simpa only [Nests] using h)
    exact ⟨.prototype header p, _, after, ⟨inside, hp, rfl⟩, rfl, hend⟩
  | assembly sources =>
    obtain ⟨p, inside, after, hp, rfl, hend⟩ := hrest depth (by simpa only [Nests] using h)
    exact ⟨.assembly sources p, _, after, ⟨inside, hp, rfl⟩, rfl, hend⟩
  | definition header =>
    -- the body is a program, and after its end the same holds of fewer declarations
    obtain ⟨body, inside, after, hbody, rfl, hend⟩ :=
      hrest (depth + 1) (by simpa only [Nests] using h)
    rcases hend with ⟨hdepth, -⟩ | ⟨outer, brace, outside, hdepth, rfl, hnests⟩
    · cases hdepth
    obtain rfl := Nat.succ.inj hdepth
    rw [List.length_append, List.length_cons] at hprograms
    obtain ⟨p, inside', after, hp, rfl, hend⟩ := hprograms outside (by omega) depth hnests
    refine ⟨.definition header body p, _, after, ⟨inside, brace, inside', hbody, hp, rfl⟩, ?_, hend⟩
    simp only [List.cons_append, List.append_assoc, List.nil_append]
  | close brace =>
    refine ⟨.empty, [], .close brace :: ds, rfl, rfl, ?_⟩
    cases depth with
    | zero => exact False.elim h
    | succ outer => exact .inr ⟨outer, brace, ds, rfl, rfl, h⟩

/-- By induction on the number of declarations: a function takes declarations away before
what follows it is read. -/
theorem startsWithProgram (n : Nat) (ds : List Declaration) (hn : ds.length ≤ n) :
    StartsWithProgram ds := by
  induction n generalizing ds with
  | zero =>
    obtain rfl := List.length_eq_zero_iff.mp (Nat.le_zero.mp hn)
    intro depth h
    exact ⟨.empty, [], [], rfl, rfl, .inl ⟨h, rfl⟩⟩
  | succ n ih =>
    cases ds with
    | nil => exact ih [] (Nat.zero_le n)
    | cons d ds =>
      rw [List.length_cons] at hn
      exact startsWithProgram_cons fun ds' hds' => ih ds' (by omega)

/-- Declarations that close exactly the bodies they open are those of a program. -/
theorem exists_lists_of_nests {ds : List Declaration} (h : Nests 0 ds) :
    ∃ p : Program, p.Lists ds := by
  obtain ⟨p, inside, after, hp, rfl, hend⟩ := startsWithProgram ds.length ds (Nat.le_refl _) 0 h
  rcases hend with ⟨-, rfl⟩ | ⟨outer, brace, rest, hdepth, -⟩
  · rw [List.append_nil]
    exact ⟨p, hp⟩
  · cases hdepth

/-! ## Spelling -/

/-- The tokens of a program are those of its declarations. -/
def Program.SpelledInTurn (p : Program) : Prop :=
  ∀ ts rest, Spells p.patterns ts rest ↔
    ∃ ds, p.Lists ds ∧ Spells (ds.flatMap Declaration.patterns) ts rest

/-- A declaration in front of a program is spelled in turn with it. -/
theorem spells_cons_program_iff {d : Declaration} {p : Program} (hp : p.SpelledInTurn)
    {ts rest : List Token} :
    Spells (d.patterns ++ p.patterns) ts rest ↔
      ∃ ds, (∃ after, p.Lists after ∧ ds = [d] ++ after) ∧
        Spells (ds.flatMap Declaration.patterns) ts rest := by
  rw [spells_append_iff]
  constructor
  · rintro ⟨mid, hd, hrest⟩
    obtain ⟨after, hafter, hspells⟩ := (hp mid rest).mp hrest
    refine ⟨_, ⟨after, hafter, rfl⟩, ?_⟩
    rw [List.singleton_append, List.flatMap_cons]
    exact spells_append_iff.mpr ⟨mid, hd, hspells⟩
  · rintro ⟨_, ⟨after, hafter, rfl⟩, hspells⟩
    rw [List.singleton_append, List.flatMap_cons] at hspells
    obtain ⟨mid, hd, hspells⟩ := spells_append_iff.mp hspells
    exact ⟨mid, hd, (hp mid rest).mpr ⟨after, hafter, hspells⟩⟩

/-- Any right brace ends a body. -/
theorem spells_rightBrace_iff {ts rest : List Token} :
    Spells [.symbol .rightBrace] ts rest ↔
      ∃ brace, Spells (Declaration.close brace).patterns ts rest := by
  simp only [Declaration.patterns, spells_singleton_iff, Pattern.fits_symbol_iff,
    Pattern.fits_token_iff]
  constructor
  · rintro ⟨t, rfl, ht⟩
    exact ⟨t, t, rfl, rfl, ht⟩
  · rintro ⟨_, t, rfl, rfl, ht⟩
    exact ⟨t, rfl, ht⟩

/-- A definition is spelled by its header, its body, its brace and what is behind them. -/
theorem spelledInTurn_definition {h : FunctionHeader} {body p : Program}
    (hbody : body.SpelledInTurn) (hp : p.SpelledInTurn) :
    (Program.definition h body p).SpelledInTurn := by
  intro ts rest
  simp only [Program.patterns, Program.Lists, spells_append_iff, spells_rightBrace_iff]
  constructor
  · rintro ⟨mid₃, ⟨mid₂, ⟨mid₁, hh, hinside⟩, brace, hclose⟩, hrest⟩
    obtain ⟨inside, hlists, hinside⟩ := (hbody mid₁ mid₂).mp hinside
    obtain ⟨after, hafter, hrest⟩ := (hp mid₃ rest).mp hrest
    refine ⟨_, ⟨inside, brace, after, hlists, hafter, rfl⟩, ?_⟩
    simp only [List.flatMap_append, List.flatMap_cons, List.flatMap_nil, List.append_nil,
      spells_append_iff]
    exact ⟨mid₃, ⟨mid₂, ⟨mid₁, hh, hinside⟩, hclose⟩, hrest⟩
  · rintro ⟨_, ⟨inside, brace, after, hlists, hafter, rfl⟩, hspells⟩
    simp only [List.flatMap_append, List.flatMap_cons, List.flatMap_nil, List.append_nil,
      spells_append_iff] at hspells
    obtain ⟨mid₃, ⟨mid₂, ⟨mid₁, hh, hinside⟩, hclose⟩, hrest⟩ := hspells
    have hinside' : Spells body.patterns mid₁ mid₂ :=
      (hbody mid₁ mid₂).mpr ⟨inside, hlists, hinside⟩
    have hrest' : Spells p.patterns mid₃ rest := (hp mid₃ rest).mpr ⟨after, hafter, hrest⟩
    exact ⟨mid₃, ⟨mid₂, ⟨mid₁, hh, hinside'⟩, brace, hclose⟩, hrest'⟩

/-- A program is spelled by its declarations, one after the other. -/
theorem spelledInTurn (p : Program) : p.SpelledInTurn := by
  induction p with
  | empty =>
    intro ts rest
    simp [Program.patterns, Program.Lists]
  | «variable» type name initializer p ih => exact fun _ _ => spells_cons_program_iff ih
  | prototype h p ih => exact fun _ _ => spells_cons_program_iff ih
  | definition h body p ihbody ih => exact spelledInTurn_definition ihbody ih
  | assembly sources p ih => exact fun _ _ => spells_cons_program_iff ih

end SmallC
