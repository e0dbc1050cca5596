import SmallC.Proofs.Condition.Reading

/-!
# Refused conditions

An algebra may refuse an expression that the grammar admits, by a number that it cannot
read or by operands that an operator is not defined on. This file shows that the reader
then refuses the spelling of the expression, with the fault that comes first from the
left to the right and from the bottom up. So reading the spelling of an expression is
nothing else than folding the algebra over it.
-/

namespace SmallC.Condition

variable {α : Type} {a : Algebra α} {fault : Fault}

/-! ## Faults of a fold -/

namespace Expression

/-- An operator before an operand never fails by itself. -/
theorem fold_unary_eq_error_iff {op : UnaryOperator} {operand : Expression} :
    (Expression.unary op operand).fold a = .error fault ↔ operand.fold a = .error fault := by
  rw [fold]
  cases operand.fold a <;> simp

/-- An operator between two operands fails with the first fault of the left one, else with that of
the right one, else with its own. -/
theorem fold_binary_eq_error_iff {op : BinaryOperator} {left right : Expression} :
    (Expression.binary op left right).fold a = .error fault ↔
      left.fold a = .error fault ∨
      (∃ x, left.fold a = .ok x) ∧ right.fold a = .error fault ∨
      ∃ x y, left.fold a = .ok x ∧ right.fold a = .ok y ∧ a.binary op x y = .error fault := by
  rw [fold]
  cases left.fold a <;> cases right.fold a <;> simp

/-- A choice fails with the first fault of its three operands; it has none of its own. -/
theorem fold_choice_eq_error_iff {condition yes no : Expression} :
    (Expression.choice condition yes no).fold a = .error fault ↔
      condition.fold a = .error fault ∨
      (∃ c, condition.fold a = .ok c) ∧ yes.fold a = .error fault ∨
      (∃ c x, condition.fold a = .ok c ∧ yes.fold a = .ok x) ∧ no.fold a = .error fault := by
  rw [fold]
  cases condition.fold a <;> cases yes.fold a <;> cases no.fold a <;> simp

end Expression

/-! ## Faults of the reader -/

/-- Where the tokens start with an expression of some level, and neither an operator of a
lower level nor, at the top, a question mark goes on with it, the reader finds a fault. -/
def RefusesAt (a : Algebra α) (e : Expression) (fault : Fault) : Nat → Prop
  | 11 => ∀ rest, Stops 10 rest → after? .question rest = none →
    expression a (e.spelling ++ rest) = .error fault
  | k => ∀ rest, Stops (k - 1) rest → operation a k (e.spelling ++ rest) = .error fault

/-- An expression is refused at the level of an operator whatever stands behind it, as long as
reading stops there. -/
theorem refusesAt_iff {e : Expression} {k : Nat} (hk : k ≤ 10) :
    RefusesAt a e fault k ↔
      ∀ rest, Stops (k - 1) rest → operation a k (e.spelling ++ rest) = .error fault := by
  have hne : k ≠ 11 := by omega
  rw [RefusesAt.eq_2 a e fault k hne]

/-- An operand is refused whatever stands behind it. -/
theorem refusesAt_zero_iff {e : Expression} :
    RefusesAt a e fault 0 ↔ ∀ rest, operand a (e.spelling ++ rest) = .error fault := by
  rw [refusesAt_iff (by omega)]
  simp only [operation]
  exact ⟨fun h rest => h rest fun _ _ _ => Nat.zero_le _, fun h rest _ => h rest⟩

/-- A fault in parentheses is the fault of the operand that they make. -/
theorem refusesAt_parentheses {inner : Expression} (h : RefusesAt a inner fault 11) :
    RefusesAt a (.parentheses inner) fault 0 := by
  refine refusesAt_zero_iff.mpr fun rest => ?_
  have hinner := h (.punctuator .rightParen :: rest)
    (stops_cons_of_ne (by intro op; cases op <;> decide)) rfl
  have hts : (Expression.parentheses inner).spelling ++ rest =
      .punctuator .leftParen :: (inner.spelling ++ .punctuator .rightParen :: rest) := by
    simp [Expression.spelling]
  rw [hts]
  simp only [operand, UnaryOperator.ofPunctuator?, ↓reduceIte, hinner]

/-- A fault of an operand is the fault of the operator before it. -/
theorem refusesAt_unary {inner : Expression} (op : UnaryOperator) (h : RefusesAt a inner fault 0) :
    RefusesAt a (.unary op inner) fault 0 := by
  refine refusesAt_zero_iff.mpr fun rest => ?_
  have hinner := refusesAt_zero_iff.mp h rest
  simp [Expression.spelling, operand, UnaryOperator.ofPunctuator?_eq_some_iff.mpr rfl, hinner]

/-- Each level refuses what the level before it refuses. -/
theorem RefusesAt.raise {e : Expression} {k : Nat} (hk : k ≤ 10) (h : RefusesAt a e fault k) :
    RefusesAt a e fault (k + 1) := by
  have hread := (refusesAt_iff hk).mp h
  by_cases hten : k = 10
  · subst hten
    intro rest hstops _
    rw [expression, hread rest (hstops.mono (by omega))]
  · refine (refusesAt_iff (by omega)).mpr fun rest hstops => ?_
    rw [operation, hread rest (hstops.mono (by omega))]

/-- The operands of an operator are read from the left to the right, then it is applied. -/
theorem refusesAt_binary {op : BinaryOperator} {left right : Expression}
    (hgrammarLeft : left.Grammatical (op.level + 1)) (hgrammarRight : right.Grammatical op.level)
    (hleft : left.fold a = .error fault → RefusesAt a left fault (op.level + 1))
    (hright : right.fold a = .error fault → RefusesAt a right fault op.level)
    (h : (Expression.binary op left right).fold a = .error fault) :
    RefusesAt a (.binary op left right) fault (op.level + 1) := by
  have hlevel := op.level_lt
  refine (refusesAt_iff (by omega)).mpr fun rest hstops => ?_
  rw [Nat.add_sub_cancel] at hstops
  have hassoc : (Expression.binary op left right).spelling ++ rest =
      left.spelling ++ .punctuator op.punctuator :: (right.spelling ++ rest) := by
    simp [Expression.spelling]
  have hstopsOp : Stops op.level (.punctuator op.punctuator :: (right.spelling ++ rest)) :=
    stops_operator (Nat.le_refl _)
  rw [hassoc]
  rcases Expression.fold_binary_eq_error_iff.mp h with
    hfault | ⟨⟨x, hx⟩, hfault⟩ | ⟨x, y, hx, hy, hfault⟩
  · exact (refusesAt_iff (by omega)).mp (hleft hfault) _ (by simpa using hstopsOp)
  · obtain ⟨hlt, hread⟩ := (readsBack_succ hlevel).mp (readsBack_of_grammatical hgrammarLeft hx)
      _ _ rfl hstopsOp
    have hrefused := (refusesAt_iff (by omega)).mp (hright hfault) rest (hstops.mono (by omega))
    rw [hread, operations_operator, hrefused]
  · obtain ⟨hlt, hread⟩ := (readsBack_succ hlevel).mp (readsBack_of_grammatical hgrammarLeft hx)
      _ _ rfl hstopsOp
    obtain ⟨hltRight, hreadRight⟩ :=
      (readsBack_of_grammatical hgrammarRight hy).operation (by omega) rfl hstops
    rw [hread, operations_operator]
    simp only [hreadRight, hfault]

/-- The condition of a choice is read before its operands, and those in turn. -/
theorem refusesAt_choice {condition yes no : Expression}
    (hgrammar : condition.Grammatical 10) (hgrammarYes : yes.Grammatical 11)
    (hcondition : condition.fold a = .error fault → RefusesAt a condition fault 10)
    (hyes : yes.fold a = .error fault → RefusesAt a yes fault 11)
    (hno : no.fold a = .error fault → RefusesAt a no fault 11)
    (h : (Expression.choice condition yes no).fold a = .error fault) :
    RefusesAt a (.choice condition yes no) fault 11 := by
  intro rest hstops hquestion
  have hassoc : (Expression.choice condition yes no).spelling ++ rest =
      condition.spelling ++ .punctuator .question ::
        (yes.spelling ++ .punctuator .colon :: (no.spelling ++ rest)) := by
    simp [Expression.spelling]
  have hstopsQuestion (us : List DirectiveToken) : Stops 10 (.punctuator .question :: us) :=
    stops_cons_of_ne (by intro op; cases op <;> decide)
  have hstopsColon (us : List DirectiveToken) : Stops 10 (.punctuator .colon :: us) :=
    stops_cons_of_ne (by intro op; cases op <;> decide)
  rw [hassoc, expression]
  rcases Expression.fold_choice_eq_error_iff.mp h with
    hfault | ⟨⟨c, hc⟩, hfault⟩ | ⟨⟨c, x, hc, hx⟩, hfault⟩
  · rw [(refusesAt_iff (by omega)).mp (hcondition hfault) _
      ((hstopsQuestion _).mono (by omega))]
  all_goals
    obtain ⟨hlt, hread⟩ := (readsBack_of_grammatical hgrammar hc).operation (by omega) rfl
      (hstopsQuestion (yes.spelling ++ .punctuator .colon :: (no.spelling ++ rest)))
    simp only [hread]
    split
    · rename_i hnone
      simp at hnone
    rename_i rest' hsome
    rw [after?_cons_self] at hsome
    obtain rfl := Option.some.inj hsome
  · rw [hyes hfault _ (hstopsColon _) rfl]
  · obtain ⟨hltYes, hreadYes⟩ := readsBack_of_grammatical hgrammarYes hx _ _ rfl
      (hstopsColon (no.spelling ++ rest)) rfl
    simp only [hreadYes]
    split
    · rename_i hnone
      simp at hnone
    rename_i rest' hsome
    rw [after?_cons_self] at hsome
    obtain rfl := Option.some.inj hsome
    rw [hno hfault rest hstops hquestion]

/-- Whatever the algebra refuses is refused by the reader. -/
theorem refusesAt_of_grammatical {k : Nat} {e : Expression} (h : e.Grammatical k)
    (hfault : e.fold a = .error fault) : RefusesAt a e fault k := by
  induction h with
  | number text =>
    have hnumber : a.number text = .error fault := hfault
    exact refusesAt_zero_iff.mpr fun rest => by simp [Expression.spelling, operand, hnumber]
  | identifier hname => cases hfault
  | isDefined parenthesized name => cases hfault
  | parentheses hinner ih => exact refusesAt_parentheses (ih hfault)
  | unary op hoperand ih =>
    exact refusesAt_unary op (ih (Expression.fold_unary_eq_error_iff.mp hfault))
  | raise hk h ih => exact (ih hfault).raise hk
  | binary hrow hop hleft hright ihleft ihright =>
    obtain rfl := BinaryOperator.exists_row_iff.mp ⟨_, hrow, hop⟩
    exact refusesAt_binary hleft hright ihleft ihright hfault
  | choice hcondition hyes hno ihcondition ihyes ihno =>
    exact refusesAt_choice hcondition hyes ihcondition ihyes ihno hfault

/-- Reading the spelling of an expression is folding the algebra over it, faults
included. -/
theorem read_spelling {e : Expression} (h : e.Grammatical 11) :
    read a e.spelling = e.fold a := by
  cases hfold : e.fold a with
  | ok v => exact read_eq_ok_iff.mpr ⟨e, h, rfl, hfold⟩
  | error fault =>
    have hrefused := refusesAt_of_grammatical h hfold [] (by rintro op rest heq; cases heq) rfl
    rw [List.append_nil] at hrefused
    rw [read, hrefused]

end SmallC.Condition
