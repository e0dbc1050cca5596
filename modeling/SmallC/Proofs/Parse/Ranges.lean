import SmallC.Proofs.Parse.FaultPositions

/-!
# Ranges of tokens

The parser cuts the tokens into ranges, one for each declaration that it enters or refuses.
The ranges cover the tokens, the faults are those of the ranges in order, and each is reported
at a token of its range. There is one exception, a block of assembly without strings.
-/

namespace SmallC

variable {last : Position} {e e' : Environment} {t : Token} {ts tokens taken rest : List Token}
  {fault : Diagnostic}

/-! ## One declaration -/

/-- What is skipped is the start of the tokens. -/
theorem exists_skipped (depth : Nat) (ts : List Token) :
    ∃ skipped, ts = skipped ++ skipBody depth ts := by
  rcases closesBefore_skipBody depth ts with ⟨body, brace, hts, -⟩ | ⟨hrest, -⟩
  · exact ⟨body ++ [brace], by simpa using hts⟩
  · exact ⟨ts, by rw [hrest, List.append_nil]⟩

namespace Environment

/-- What entering takes is the start of the tokens. -/
theorem exists_taken_of_enter (e : Environment) (d : Declaration) (ts : List Token) :
    ∃ taken, ts = taken ++ (e.enter d ts).2 := by
  cases d with
  | «variable» | assembly | close => exact ⟨[], rfl⟩
  | prototype h =>
    refine ⟨[], ?_⟩
    simp only [enter]
    split <;> rfl
  | definition h =>
    simp only [enter]
    split
    · exact exists_skipped 0 ts
    · exact ⟨[], rfl⟩

/-- A declaration takes tokens from the front, at least one. -/
theorem exists_taken_of_declare (e : Environment) (last : Position) (t : Token) (ts : List Token) :
    ∃ taken, taken ≠ [] ∧ t :: ts = taken ++ (e.declare last t ts).2 := by
  obtain ⟨taken, htaken⟩ : ∃ taken, t :: ts = taken ++ (e.declare last t ts).2 := by
    obtain ⟨before, hbefore, -⟩ := Declaration.faultsWithin_read last t ts
    unfold declare
    split
    · rename_i hread
      rw [hread] at hbefore
      exact ⟨before, hbefore⟩
    · rename_i d rest hread
      rw [hread] at hbefore
      obtain ⟨after, hafter⟩ := exists_taken_of_enter e d rest
      refine ⟨before ++ after, ?_⟩
      rw [List.append_assoc, ← hafter]
      exact hbefore
  refine ⟨taken, ?_, htaken⟩
  rintro rfl
  have hlength := e.length_declare last t ts
  rw [List.nil_append] at htaken
  rw [← htaken, List.length_cons] at hlength
  omega

/-- A declaration that is refused is at fault in one of the tokens that it takes, unless it is
a block of assembly without strings. -/
theorem isAt_of_declare (hrefused : e.declare last t ts = (.error fault, rest))
    (htaken : t :: ts = taken ++ rest) (hlast : ∀ u ∈ (t :: ts).getLast?, u.position = last) :
    (∃ u ∈ taken, fault.IsAt u.position) ∨
      Spells (Declaration.assembly []).patterns taken [] := by
  obtain ⟨before, hbefore, hread⟩ := Declaration.faultsWithin_read last t ts
  unfold declare at hrefused
  split at hrefused
  · rename_i hresult
    cases hrefused
    rw [hresult] at hbefore hread
    obtain rfl : before = taken := List.append_cancel_right (hbefore.symm.trans htaken)
    rcases hread fault rfl with hwithin | ⟨hrest, hat⟩
    · exact .inl hwithin
    · -- the tokens have ended, so the last one of all was taken
      obtain rfl : rest = [] := hrest
      rw [List.append_nil] at htaken
      subst htaken
      refine .inl ⟨(t :: ts).getLast (List.cons_ne_nil t ts), List.getLast_mem _, ?_⟩
      rwa [hlast _ (List.getLast?_eq_some_getLast _)]
  · rename_i d mid hresult
    obtain ⟨spelling, hspelling, hspells⟩ :=
      exists_taken_of_spells (Declaration.read_eq_ok_iff.mp hresult)
    obtain ⟨after, hafter⟩ := exists_taken_of_enter e d mid
    rw [hrefused] at hafter
    obtain rfl : taken = spelling ++ after := by
      have htokens : taken ++ rest = spelling ++ after ++ rest := by
        rw [← htaken, hspelling, List.append_assoc]
        exact congrArg _ hafter
      exact List.append_cancel_right htokens
    rcases isAt_of_enter (congrArg Prod.fst hrefused) with ⟨u, hu, hat⟩ | ⟨rfl, -⟩
    · exact .inl ⟨u, List.mem_append_left after (mem_of_spells hspells hu), hat⟩
    · obtain rfl : mid = rest := congrArg Prod.snd hrefused
      obtain rfl : after = [] := List.append_left_eq_self.mp hafter.symm
      exact .inr (by simpa using hspells)

/-- The fault of a block of assembly without strings is at no place. -/
theorem eq_duplicateNode_of_bareAssembly (hrefused : e.declare last t ts = (.error fault, rest))
    (h : Spells (Declaration.assembly []).patterns (t :: ts) rest) :
    fault = duplicateNode default s!"Assembly{e.childCount}" := by
  rw [declare, Declaration.read_eq_ok_iff.mpr h] at hrefused
  exact eq_duplicateNode_of_addAssembly (congrArg Prod.fst hrefused)

/-- A block of assembly without strings is refused if the name of its node is taken. -/
theorem declare_bareAssembly (last : Position) (he : e.Valid)
    (htaken : ¬ e.context.AllowsAssembly)
    (h : Spells (Declaration.assembly []).patterns (t :: ts) rest) :
    e.declare last t ts = (.error (duplicateNode default s!"Assembly{e.childCount}"), rest) := by
  have hread : Declaration.read last t ts = (.ok (.assembly []), rest) :=
    Declaration.read_eq_ok_iff.mpr h
  cases hadded : e.addAssembly [] with
  | ok e' => exact absurd (allowsAssembly_of_added he hadded) htaken
  | error fault =>
    obtain rfl := eq_duplicateNode_of_addAssembly hadded
    simp only [declare, hread, enter, hadded]
    rfl

end Environment

/-! ## All declarations -/

namespace Parse

/-- The tokens that were taken for one declaration, and the fault if it was refused. -/
structure Range where
  /-- The tokens. -/
  tokens : List Token
  /-- The fault. -/
  fault : Option Diagnostic

/-- From an environment the parser goes through tokens declaration by declaration. This is
what it takes for each of them, and the environment that it comes to. -/
inductive Cuts (last : Position) : Environment → List Token → List Range → Environment → Prop
  | nil {e : Environment} : Cuts last e [] [] e
  | entered {e e₁ e' : Environment} {t : Token} {ts taken rest : List Token}
      {ranges : List Range} :
    e.declare last t ts = (.ok e₁, rest) → t :: ts = taken ++ rest →
    Cuts last e₁ rest ranges e' → Cuts last e (t :: ts) (⟨taken, none⟩ :: ranges) e'
  | refused {e e' : Environment} {t : Token} {fault : Diagnostic} {ts taken rest : List Token}
      {ranges : List Range} :
    e.declare last t ts = (.error fault, rest) → t :: ts = taken ++ rest →
    Cuts last e rest ranges e' → Cuts last e (t :: ts) (⟨taken, some fault⟩ :: ranges) e'

/-- Where the fault of a range is reported: at one of its tokens, unless it is a block of
assembly without strings, whose fault is at no place. -/
structure Range.Locates (r : Range) (fault : Diagnostic) : Prop where
  within : ¬ Spells (Declaration.assembly []).patterns r.tokens [] →
    ∃ t ∈ r.tokens, t.position = fault.position
  nowhere : Spells (Declaration.assembly []).patterns r.tokens [] →
    ∃ count : Nat, fault = Environment.duplicateNode default s!"Assembly{count}"

variable {ranges : List Range}

/-- The parser cuts tokens into ranges, and its faults are those of the ranges. -/
theorem exists_cuts (last : Position) (e : Environment) (faults : Array Diagnostic)
    (tokens : List Token) :
    ∃ ranges, Cuts last e tokens ranges (declarations last e faults tokens).1 ∧
      (declarations last e faults tokens).2.toList =
        faults.toList ++ ranges.filterMap (·.fault) := by
  fun_induction declarations last e faults tokens with
  | case1 e faults => exact ⟨[], .nil, by simp⟩
  | case2 e faults t ts e₁ rest hentered ih =>
    obtain ⟨ranges, hcuts, hfaults⟩ := ih
    obtain ⟨taken, -, htaken⟩ := e.exists_taken_of_declare last t ts
    rw [hentered] at htaken
    exact ⟨⟨taken, none⟩ :: ranges, .entered hentered htaken hcuts, by simpa using hfaults⟩
  | case3 e faults t ts fault rest hrefused ih =>
    obtain ⟨ranges, hcuts, hfaults⟩ := ih
    obtain ⟨taken, -, htaken⟩ := e.exists_taken_of_declare last t ts
    rw [hrefused] at htaken
    exact ⟨⟨taken, some fault⟩ :: ranges, .refused hrefused htaken hcuts, by simpa using hfaults⟩

namespace Cuts

/-- The ranges cover the tokens in order. -/
theorem flatMap_tokens (h : Cuts last e tokens ranges e') :
    ranges.flatMap (·.tokens) = tokens := by
  induction h with
  | nil => rfl
  | entered _ htaken _ ih => rw [List.flatMap_cons, ih, htaken]
  | refused _ htaken _ ih => rw [List.flatMap_cons, ih, htaken]

/-- A declaration takes at least its first token, whether it is entered or refused. -/
theorem ne_nil_of_declare {result : Except Diagnostic Environment}
    (hdeclare : e.declare last t ts = (result, rest)) (htaken : t :: ts = taken ++ rest) :
    taken ≠ [] := by
  obtain ⟨before, hbefore, heq⟩ := e.exists_taken_of_declare last t ts
  rw [hdeclare, htaken] at heq
  rwa [List.append_cancel_right heq]

/-- No range is empty. -/
theorem ne_nil (h : Cuts last e tokens ranges e') : ∀ r ∈ ranges, r.tokens ≠ [] := by
  induction h with
  | nil => exact fun r hr => nomatch hr
  | entered hentered htaken _ ih =>
    exact List.forall_mem_cons.mpr ⟨ne_nil_of_declare hentered htaken, ih⟩
  | refused hrefused htaken _ ih =>
    exact List.forall_mem_cons.mpr ⟨ne_nil_of_declare hrefused htaken, ih⟩

/-- A refused declaration is located by its fault: at one of its tokens, unless it is a block of
assembly without strings. -/
theorem locates_of_refused (hrefused : e.declare last t ts = (.error fault, rest))
    (htaken : t :: ts = taken ++ rest) (hlast : ∀ u ∈ (t :: ts).getLast?, u.position = last) :
    Range.Locates ⟨taken, some fault⟩ fault := by
  constructor
  · intro hbare
    obtain ⟨u, hu, hat⟩ :=
      (Environment.isAt_of_declare hrefused htaken hlast).resolve_right hbare
    exact ⟨u, hu, hat.position_eq⟩
  · intro hbare
    refine ⟨e.childCount, Environment.eq_duplicateNode_of_bareAssembly hrefused ?_⟩
    rw [htaken]
    exact hbare.append rest

/-- The fault of each range is where it is said to be. -/
theorem locates (h : Cuts last e tokens ranges e')
    (hlast : ∀ u ∈ tokens.getLast?, u.position = last) :
    ∀ r ∈ ranges, ∀ fault ∈ r.fault, r.Locates fault := by
  have hrest {t : Token} {ts taken rest : List Token} (htaken : t :: ts = taken ++ rest)
      (hlast : ∀ u ∈ (t :: ts).getLast?, u.position = last) :
      ∀ u ∈ rest.getLast?, u.position = last := by
    intro u hu
    refine hlast u ?_
    rw [htaken, List.getLast?_append, Option.mem_def.mp hu]
    rfl
  induction h with
  | nil => exact fun r hr => nomatch hr
  | entered _ htaken _ ih =>
    exact List.forall_mem_cons.mpr ⟨fun _ h => (nomatch h), ih (hrest htaken hlast)⟩
  | refused hrefused htaken _ ih =>
    refine List.forall_mem_cons.mpr ⟨fun fault' hfault => ?_, ih (hrest htaken hlast)⟩
    obtain rfl := Option.some.inj hfault
    exact locates_of_refused hrefused htaken hlast

end Cuts

/-- A body that is open after the last token is reported there. -/
theorem position_of_unclosed {e : Environment} (h : Cuts last .empty tokens ranges e)
    (hfault : fault ∈ unclosed (lastPosition tokens) e) :
    ∃ t ∈ tokens.getLast?, t.position = fault.position := by
  unfold unclosed at hfault
  split at hfault
  · cases hfault
  · rename_i hdepth
    obtain rfl := List.mem_singleton.mp hfault
    cases hlast : tokens.getLast? with
    | none =>
      obtain rfl := List.getLast?_eq_none_iff.mp hlast
      cases h
      exact absurd rfl hdepth
    | some t =>
      refine ⟨t, rfl, ?_⟩
      simp [Diagnostic.position, lastPosition, hlast]

/-- The parser cuts the tokens into ranges, none of them empty, one for each declaration that
it enters or refuses. Its faults are those of the ranges, in order, and at the end that of a
body that is open. Each is at a token of its range, or at the last token if it is about an open
body; only a block of assembly without strings is reported at no place. -/
theorem ofTokens_ranges (tokens : List Token) :
    ∃ ranges e, Cuts (lastPosition tokens) .empty tokens ranges e ∧
      ranges.flatMap (·.tokens) = tokens ∧ (∀ r ∈ ranges, r.tokens ≠ []) ∧
      (ofTokens tokens).diagnostics =
        ranges.filterMap (·.fault) ++ unclosed (lastPosition tokens) e ∧
      (∀ r ∈ ranges, ∀ fault ∈ r.fault, r.Locates fault) ∧
      ∀ fault ∈ unclosed (lastPosition tokens) e,
        ∃ t ∈ tokens.getLast?, t.position = fault.position := by
  obtain ⟨ranges, hcuts, hfaults⟩ := exists_cuts (lastPosition tokens) .empty #[] tokens
  have hlast : ∀ u ∈ tokens.getLast?, u.position = lastPosition tokens := by
    intro u hu
    rw [lastPosition, Option.mem_def.mp hu]
    rfl
  refine ⟨ranges, _, hcuts, hcuts.flatMap_tokens, hcuts.ne_nil, ?_, hcuts.locates hlast,
    fun fault hfault => position_of_unclosed hcuts hfault⟩
  show (declarations (lastPosition tokens) .empty #[] tokens).2.toList ++ _ = _
  rw [hfaults]
  rfl

/-- The exception: behind a function that has the name of its node, a block of assembly without
strings is refused, and no token stands where that is reported. -/
theorem not_exists_position_of_bareAssembly :
    ¬ ∀ (tokens : List Token) (fault : Diagnostic), fault ∈ (ofTokens tokens).diagnostics →
      ∃ t ∈ tokens, t.position = fault.position := by
  intro hall
  let word (kind : TokenKind) (lexeme : String) (column : UInt16) : Token :=
    ⟨kind, lexeme, none, ⟨1, column⟩⟩
  let int := word (.keyword .int) "int" 1
  let name := word .identifier "Assembly1" 5
  let brace := word (.symbol .rightBrace) "\x7d" 19
  let asm := word (.keyword .asm) "__asm__" 21
  let block := [word (.symbol .leftBrace) "\x7b" 29, word (.symbol .rightBrace) "\x7d" 31]
  let ts := [name, word (.symbol .leftParen) "(" 14, word (.symbol .rightParen) ")" 15,
    word (.symbol .leftBrace) "\x7b" 17] ++ brace :: asm :: block
  let h : FunctionHeader := ⟨⟨.int, false⟩, name, []⟩
  let fault := Environment.duplicateNode default "Assembly1"
  have hheader : Spells (Declaration.definition h).patterns (int :: ts)
      (brace :: asm :: block) := by decide
  have hname : h.name.lexeme ∉ Environment.empty.context.siblings := by decide +kernel
  obtain ⟨e₁, hopen, hopened⟩ := Environment.exists_opened valid_empty hname
  have hinside : Environment.Grown e₁ .empty e₁ := ⟨graft_nil.symm, rfl, rfl, rfl, rfl⟩
  obtain ⟨e₂, hclose, hgrown⟩ := Environment.exists_closed valid_empty hopened hinside brace
  have hfirst : Environment.empty.declare ⟨1, 31⟩ int ts = (.ok e₁, brace :: asm :: block) := by
    have hnone : Environment.empty.functionIndex? h.name.lexeme = none :=
      Environment.functionIndex?_eq_none_iff.mpr rfl
    rw [hnone] at hopen
    rw [Environment.declare, Declaration.read_eq_ok_iff.mpr hheader]
    exact Environment.enter_eq_ok_iff.mpr
      ⟨⟨none, Environment.admissible_first rfl _ _ _, hopen⟩, rfl⟩
  have hsecond : e₁.declare ⟨1, 31⟩ brace (asm :: block) = (.ok e₂, asm :: block) := by
    have htakes : e₁.Takes (.close brace) e₂ := hclose
    exact Environment.enter_eq_ok_iff.mpr ⟨htakes, rfl⟩
  have hthird : e₂.declare ⟨1, 31⟩ asm block = (.error fault, []) := by
    have hcontext := hgrown.context valid_empty
    have htaken : ¬ e₂.context.AllowsAssembly := by
      rw [hcontext]
      exact not_not_intro (by decide +kernel)
    have hcount : e₂.childCount = 1 := by
      rw [Environment.childCount_eq, hcontext]
      rfl
    have hbare := Environment.declare_bareAssembly ⟨1, 31⟩ (hgrown.valid valid_empty) htaken
      (by decide : Spells (Declaration.assembly []).patterns (asm :: block) [])
    rwa [hcount] at hbare
  have hfault : fault ∈ (ofTokens (int :: ts)).diagnostics := by
    have hlast : lastPosition (int :: ts) = ⟨1, 31⟩ := rfl
    refine List.mem_append_left _ ?_
    show fault ∈ (declarations (lastPosition (int :: ts)) .empty #[] (int :: ts)).2.toList
    rw [hlast, declarations_of_entered hfirst, declarations_of_entered hsecond,
      declarations_of_refused hthird, declarations]
    exact List.mem_singleton_self fault
  obtain ⟨t, ht, hposition⟩ := hall _ fault hfault
  revert t
  decide

end Parse

end SmallC
