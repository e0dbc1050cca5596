import SmallC.Proofs.Parse.FaultPositions

/-!
# Bodies that are not closed

A body that is not closed is reported at the end of the tokens and nowhere else: neither
reading nor entering a declaration has such a fault.
-/

namespace SmallC

/-- A declaration that is refused has another fault than that a body is not closed. -/
theorem Environment.isUnclosedBody_of_declare {e : Environment} {last : Position} {t : Token}
    {ts rest : List Token} {fault : Diagnostic}
    (hrefused : e.declare last t ts = (.error fault, rest)) : fault.isUnclosedBody = false := by
  unfold declare at hrefused
  split at hrefused
  · rename_i hread
    cases hrefused
    obtain ⟨taken, -, hfault⟩ := Declaration.faultsWithin_read last t ts
    rcases hfault fault (by rw [hread]) with ⟨u, -, hat⟩ | ⟨-, hat⟩
    · exact hat.isUnclosedBody
    · exact hat.isUnclosedBody
  · rcases isAt_of_enter (congrArg Prod.fst hrefused) with ⟨u, -, hat⟩ | ⟨-, hat⟩
    · exact hat.isUnclosedBody
    · exact hat.isUnclosedBody

namespace Parse

variable {tokens rest : List Token} {entered : List Declaration} {e : Environment}

/-- The faults of declarations are about something else than bodies that are not closed. -/
theorem filter_declarations (last : Position) (e : Environment) (faults : Array Diagnostic)
    (ts : List Token) :
    (declarations last e faults ts).2.toList.filter Diagnostic.isUnclosedBody =
      faults.toList.filter Diagnostic.isUnclosedBody := by
  fun_induction declarations last e faults ts with
  | case1 => rfl
  | case2 e faults t ts e₁ rest h ih => exact ih
  | case3 e faults t ts fault rest h ih =>
    have hfault : fault.isUnclosedBody = false := Environment.isUnclosedBody_of_declare h
    rw [ih, Array.toList_push, List.filter_append]
    simp [hfault]

/-- A body that is not closed is reported at the end of the tokens. -/
theorem filter_ofTokens (tokens : List Token) :
    (ofTokens tokens).diagnostics.filter Diagnostic.isUnclosedBody =
      unclosed (lastPosition tokens)
        (declarations (lastPosition tokens) .empty #[] tokens).1 := by
  have hfaults := filter_declarations (lastPosition tokens) .empty #[] tokens
  have hunclosed (e : Environment) : (unclosed (lastPosition tokens) e).filter
      Diagnostic.isUnclosedBody = unclosed (lastPosition tokens) e := by
    unfold unclosed
    split <;> rfl
  show ((declarations (lastPosition tokens) .empty #[] tokens).2.toList ++
    unclosed (lastPosition tokens) _).filter Diagnostic.isUnclosedBody = _
  rw [List.filter_append, hfaults, hunclosed]
  rfl

/-- The parser goes on from whatever it has come to. -/
theorem Reaches.exists_declarations_eq (h : Reaches tokens entered e rest) :
    ∃ faults, Parse.declarations (lastPosition tokens) .empty #[] tokens =
      Parse.declarations (lastPosition tokens) e faults rest := by
  induction h with
  | start => exact ⟨#[], rfl⟩
  | @entered entered e e' t d ts mid rest _ hread henter ih =>
    obtain ⟨faults, heq⟩ := ih
    have hdeclare : e.declare (lastPosition tokens) t ts = (.ok e', rest) := by
      simp only [Environment.declare, hread, henter]
    exact ⟨faults, heq.trans (declarations_of_entered hdeclare faults)⟩
  | @refused entered e t fault ts rest _ hdeclare ih =>
    obtain ⟨faults, heq⟩ := ih
    exact ⟨faults.push fault, heq.trans (declarations_of_refused hdeclare faults)⟩

/-- What the parser has come to at the end of the tokens is what it reports on. -/
theorem Reaches.filter_diagnostics (h : Reaches tokens entered e []) :
    (ofTokens tokens).diagnostics.filter Diagnostic.isUnclosedBody =
      unclosed (lastPosition tokens) e := by
  obtain ⟨faults, heq⟩ := h.exists_declarations_eq
  rw [filter_ofTokens, heq, Parse.declarations]

end Parse

end SmallC
