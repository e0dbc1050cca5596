import SmallC.Proofs.Condition.Evaluation
import SmallC.Proofs.Condition.Refusal

/-!
# Conditions in which an operand is not needed

In C the right operand of `&&` or `||` is evaluated only if the left one does not settle
the value, and of the last two operands of a choice only the selected one is. Here every
operand is evaluated. The value is the same, but an operand that C would skip can still
make the condition fail: it does exactly if it divides by zero somewhere.
-/

namespace SmallC.Condition

/-- The value that the left operand of an operator settles, whatever the right one is. -/
def BinaryOperator.settled? : BinaryOperator → Int64 → Option Int64
  | .and, x => if x = 0 then some 0 else none
  | .or, x => if x ≠ 0 then some 1 else none
  | _, _ => none

namespace Expression

/-- The value of an expression if only the operands that are needed are evaluated. There
is none if a number is no literal or if a division by zero is evaluated. -/
def lazyValue? (macros : MacroTable) : Expression → Option Int64
  | .number text => number? text.toList
  | .identifier name => some (((macros.get? name).bind Macro.integer?).getD 0)
  | .isDefined _ name => some (Int64.ofInt (indicator (macros.contains name)))
  | .parentheses inner => inner.lazyValue? macros
  | .unary op operand =>
    (operand.lazyValue? macros).map fun x => Int64.ofInt (op.meaning x.toInt)
  | .binary op left right =>
    (left.lazyValue? macros).bind fun x =>
      match op.settled? x with
      | some v => some v
      | none =>
        (right.lazyValue? macros).bind fun y =>
          if (op = .div ∨ op = .mod) ∧ y = 0 then none
          else some (Int64.ofInt (op.meaning x.toInt y.toInt))
  | .choice condition yes no =>
    (condition.lazyValue? macros).bind fun c =>
      if c ≠ 0 then yes.lazyValue? macros else no.lazyValue? macros

/-- The operands that are not needed, from the left to the right. -/
def skipped (macros : MacroTable) : Expression → List Expression
  | .number _ | .identifier _ | .isDefined _ _ => []
  | .parentheses inner => inner.skipped macros
  | .unary _ operand => operand.skipped macros
  | .binary op left right =>
    left.skipped macros ++
      if ((left.lazyValue? macros).bind op.settled?).isSome then [right] else right.skipped macros
  | .choice condition yes no =>
    condition.skipped macros ++
      if condition.lazyValue? macros ≠ some 0 then yes.skipped macros ++ [no]
      else yes :: no.skipped macros

end Expression

variable {macros : MacroTable} {e : Expression} {v : Int64}

/-- Only `&&` and `||` have a value that one operand settles, and it is the one that they have
with any other operand. -/
theorem BinaryOperator.meaning_of_settled {op : BinaryOperator} {x : Int64}
    (h : op.settled? x = some v) (y : Int) :
    op ≠ .div ∧ op ≠ .mod ∧ Int64.ofInt (op.meaning x.toInt y) = v := by
  cases op with
  | or =>
    have hx : x ≠ 0 ∧ 1 = v := by simpa [settled?] using h
    refine ⟨by decide, by decide, ?_⟩
    rw [meaning, indicator, if_pos (.inl fun hzero => hx.1 (toInt_eq_zero_iff.mp hzero)), ← hx.2]
    rfl
  | and =>
    have hx : x = 0 ∧ 0 = v := by simpa [settled?] using h
    refine ⟨by decide, by decide, ?_⟩
    rw [meaning, indicator, if_neg fun hne => hne.1 (toInt_eq_zero_iff.mpr hx.1), ← hx.2]
    rfl
  | _ => cases h

namespace Expression

/-- The value of an operator if the right operand is left out wherever the left one settles it: only
where it does not, the right one has to have a value, and one that can be divided by. -/
theorem lazyValue?_binary_eq_some_iff {op : BinaryOperator} {left right : Expression} :
    (Expression.binary op left right).lazyValue? macros = some v ↔
      ∃ x, left.lazyValue? macros = some x ∧
        (op.settled? x = some v ∨
          op.settled? x = none ∧ ∃ y, right.lazyValue? macros = some y ∧
            (op = .div ∨ op = .mod → y ≠ 0) ∧ Int64.ofInt (op.meaning x.toInt y.toInt) = v) := by
  simp only [lazyValue?, Option.bind_eq_some_iff]
  refine exists_congr fun x => and_congr_right fun _ => ?_
  cases op.settled? x with
  | some w => simp
  | none =>
    simp only [Option.bind_eq_some_iff, reduceCtorEq, true_and, false_or]
    refine exists_congr fun y => and_congr_right fun _ => ?_
    by_cases hop : op = .div ∨ op = .mod <;> by_cases hy : y = 0 <;> simp [hop, hy]

/-- The value that a choice has if only the operand that is chosen counts. -/
theorem lazyValue?_choice_eq_some_iff {condition yes no : Expression} :
    (Expression.choice condition yes no).lazyValue? macros = some v ↔
      ∃ c, condition.lazyValue? macros = some c ∧
        (c ≠ 0 ∧ yes.lazyValue? macros = some v ∨ c = 0 ∧ no.lazyValue? macros = some v) := by
  simp only [lazyValue?, Option.bind_eq_some_iff]
  refine exists_congr fun c => and_congr_right fun _ => ?_
  by_cases hc : c = 0 <;> simp [hc]

/-- Evaluating every operand changes no value. -/
theorem value_of_lazyValue? (h : e.lazyValue? macros = some v) : e.value macros = v := by
  induction e generalizing v with
  | number text =>
    have hnumber : number? text.toList = some v := h
    rw [value, hnumber, Option.getD_some]
  | identifier name => exact Option.some.inj h
  | isDefined parenthesized name => exact Option.some.inj h
  | parentheses inner ih => exact ih h
  | unary op operand ih =>
    obtain ⟨x, hx, rfl⟩ := Option.map_eq_some_iff.mp h
    rw [value, ih hx]
  | binary op left right ihleft ihright =>
    obtain ⟨x, hx, hsettled | ⟨-, y, hy, -, rfl⟩⟩ := lazyValue?_binary_eq_some_iff.mp h
    · obtain ⟨-, -, hmeaning⟩ :=
        BinaryOperator.meaning_of_settled hsettled (right.value macros).toInt
      rw [value, ihleft hx, hmeaning]
    · rw [value, ihleft hx, ihright hy]
  | choice condition yes no ihcondition ihyes ihno =>
    obtain ⟨c, hc, ⟨hne, hyes⟩ | ⟨heq, hno⟩⟩ := lazyValue?_choice_eq_some_iff.mp h
    · rw [value, ihcondition hc, if_pos hne, ihyes hyes]
    · rw [value, ihcondition hc, if_neg (not_not_intro heq), ihno hno]

/-- Where no division by zero is needed, there is none anywhere exactly if there is none
among the operands that are not needed. -/
theorem divisorsNonzero_iff_of_lazyValue? (h : e.lazyValue? macros = some v) :
    e.DivisorsNonzero macros ↔ ∀ o ∈ e.skipped macros, o.DivisorsNonzero macros := by
  induction e generalizing v with
  | number text => simp [DivisorsNonzero, skipped]
  | identifier name => simp [DivisorsNonzero, skipped]
  | isDefined parenthesized name => simp [DivisorsNonzero, skipped]
  | parentheses inner ih => exact ih h
  | unary op operand ih =>
    obtain ⟨x, hx, -⟩ := Option.map_eq_some_iff.mp h
    exact ih hx
  | binary op left right ihleft ihright =>
    obtain ⟨x, hx, hsettled | ⟨hopen, y, hy, hzero, -⟩⟩ := lazyValue?_binary_eq_some_iff.mp h
    · obtain ⟨hdiv, hmod, -⟩ := BinaryOperator.meaning_of_settled hsettled 0
      simp [DivisorsNonzero, skipped, hx, hsettled, ihleft hx, or_imp, forall_and, hdiv, hmod]
    · have hzero' : op = .div ∨ op = .mod → right.value macros ≠ 0 := by
        rwa [value_of_lazyValue? hy]
      simp only [DivisorsNonzero, skipped, hx, hopen, ihleft hx, ihright hy, Option.bind_some,
        Option.isSome_none, Bool.false_eq_true, if_false, List.mem_append, or_imp, forall_and]
      exact and_congr_right fun _ => and_iff_left (or_imp.mp hzero')
  | choice condition yes no ihcondition ihyes ihno =>
    obtain ⟨c, hc, ⟨hne, hyes⟩ | ⟨heq, hno⟩⟩ := lazyValue?_choice_eq_some_iff.mp h
    · simp [DivisorsNonzero, skipped, hc, hne, ihcondition hc, ihyes hyes, or_imp, forall_and]
    · simp [DivisorsNonzero, skipped, hc, heq, ihcondition hc, ihno hno, or_imp, forall_and]

end Expression

/-- Where every number is a literal, only a division by zero has no value. -/
theorem eq_byZero_of_fold_integers {fault : Fault} (hnumbers : e.NumbersReadable)
    (h : e.fold (integers macros) = .error fault) :
    fault = .divisionByZero ∨ fault = .moduloByZero := by
  induction e with
  | number text =>
    obtain ⟨v, hv⟩ := Option.isSome_iff_exists.mp hnumbers
    simp [Expression.fold, integers, hv] at h
  | identifier name => cases h
  | isDefined parenthesized name => cases h
  | parentheses inner ih => exact ih hnumbers h
  | unary op operand ih => exact ih hnumbers (Expression.fold_unary_eq_error_iff.mp h)
  | binary op left right ihleft ihright =>
    rcases Expression.fold_binary_eq_error_iff.mp h with
      hfault | ⟨-, hfault⟩ | ⟨x, y, -, -, hfault⟩
    · exact ihleft hnumbers.1 hfault
    · exact ihright hnumbers.2 hfault
    · have happly : op.apply x y = .error fault := hfault
      cases op with
      | div =>
        by_cases hy : y = 0
        · simp only [BinaryOperator.apply, hy, if_true, Except.error.injEq] at happly
          exact .inl happly.symm
        · simp [BinaryOperator.apply, hy] at happly
      | mod =>
        by_cases hy : y = 0
        · simp only [BinaryOperator.apply, hy, if_true, Except.error.injEq] at happly
          exact .inr happly.symm
        · simp [BinaryOperator.apply, hy] at happly
      | _ => cases happly
  | choice condition yes no ihcondition ihyes ihno =>
    rcases Expression.fold_choice_eq_error_iff.mp h with hfault | ⟨-, hfault⟩ | ⟨-, hfault⟩
    · exact ihcondition hnumbers.1 hfault
    · exact ihyes hnumbers.2.1 hfault
    · exact ihno hnumbers.2.2 hfault

/-- A condition that has a value if only what is needed is evaluated has the same value
here, unless an operand that is not needed divides by zero. Then the condition fails for
a division by zero. -/
theorem evaluate_of_lazyValue? (hgrammar : e.Grammatical 11) (hnumbers : e.NumbersReadable)
    (hlazy : e.lazyValue? macros = some v) :
    (∀ o ∈ e.skipped macros, o.DivisorsNonzero macros) ∧ evaluate macros e.spelling = .ok v ∨
      (∃ o ∈ e.skipped macros, ¬ o.DivisorsNonzero macros) ∧
        (evaluate macros e.spelling = .error .divisionByZero ∨
          evaluate macros e.spelling = .error .moduloByZero) := by
  have hread : evaluate macros e.spelling = e.fold (integers macros) := read_spelling hgrammar
  rw [hread]
  by_cases hskipped : ∀ o ∈ e.skipped macros, o.DivisorsNonzero macros
  · have hdivisors := (Expression.divisorsNonzero_iff_of_lazyValue? hlazy).mpr hskipped
    exact .inl ⟨hskipped, fold_integers_eq_ok_iff.mpr
      ⟨hnumbers, hdivisors, Expression.value_of_lazyValue? hlazy⟩⟩
  · refine .inr ⟨by simpa using hskipped, ?_⟩
    cases hfold : e.fold (integers macros) with
    | ok w =>
      obtain ⟨-, hdivisors, -⟩ := fold_integers_eq_ok_iff.mp hfold
      exact absurd ((Expression.divisorsNonzero_iff_of_lazyValue? hlazy).mp hdivisors) hskipped
    | error fault =>
      rcases eq_byZero_of_fold_integers hnumbers hfold with rfl | rfl
      · exact .inl rfl
      · exact .inr rfl

/-! ## A guarded quotient -/

/-- What the grammar allows in a place it allows in every looser one. -/
theorem Expression.Grammatical.raiseTo {j k : Nat} (h : e.Grammatical j) (hjk : j ≤ k)
    (hk : k ≤ 11) : e.Grammatical k := by
  induction hjk with
  | refl => exact h
  | step _ ih => exact .raise (by omega) (ih (by omega))

/-- The expression `defined(N) && 10 / N > 2`. -/
def guardedQuotient : Expression :=
  .binary .and (.isDefined true "N")
    (.binary .gt (.binary .div (.number "10") (.identifier "N")) (.number "2"))

/-- The quotient that is guarded by a test is an expression of the grammar. -/
theorem grammatical_guardedQuotient : guardedQuotient.Grammatical 11 := by
  have hquotient : (Expression.binary .div (.number "10") (.identifier "N")).Grammatical 1 :=
    .binary rfl (by decide) (.raise (by decide) (.number _)) (.identifier (by decide))
  have hgreater : (Expression.binary .gt _ (.number "2")).Grammatical 4 :=
    .binary rfl (by decide) (hquotient.raiseTo (by decide) (by decide))
      (Expression.Grammatical.raiseTo (.number _) (by decide) (by decide))
  have hand : guardedQuotient.Grammatical 9 :=
    .binary rfl (by decide)
      (Expression.Grammatical.raiseTo (.isDefined _ _) (by decide) (by decide))
      (hgreater.raiseTo (by decide) (by decide))
  exact hand.raiseTo (by decide) (by decide)

/-- All numbers in it are literals. -/
theorem numbersReadable_guardedQuotient : guardedQuotient.NumbersReadable := by
  have hten : (number? "10".toList).isSome := by decide
  have htwo : (number? "2".toList).isSome := by decide
  exact ⟨trivial, ⟨hten, trivial⟩, htwo⟩

/-- Where `N` is not defined the guard is zero, but the quotient is evaluated all the same. -/
theorem evaluate_guardedQuotient :
    guardedQuotient.Grammatical 11 ∧ guardedQuotient.NumbersReadable ∧
      guardedQuotient.lazyValue? .empty = some 0 ∧
      (evaluate .empty guardedQuotient.spelling = .error .divisionByZero ∨
        evaluate .empty guardedQuotient.spelling = .error .moduloByZero) := by
  have hlazy : guardedQuotient.lazyValue? .empty = some 0 := by decide
  refine ⟨grammatical_guardedQuotient, numbersReadable_guardedQuotient, hlazy, ?_⟩
  rcases evaluate_of_lazyValue? grammatical_guardedQuotient numbersReadable_guardedQuotient
    hlazy with ⟨hskipped, -⟩ | ⟨-, hfault⟩
  · have hquotient := (hskipped _ (List.mem_singleton.mpr rfl)).1.2.2 (.inl rfl)
    exact absurd rfl hquotient
  · exact hfault

/-- An operand that is not needed can make a condition fail. -/
theorem not_evaluate_of_lazyValue? :
    ¬ ∀ (macros : MacroTable) (e : Expression) (v : Int64), e.Grammatical 11 →
      e.NumbersReadable → e.lazyValue? macros = some v → evaluate macros e.spelling = .ok v := by
  intro hall
  have hvalue := hall .empty guardedQuotient 0 grammatical_guardedQuotient
    numbersReadable_guardedQuotient (by decide)
  have hfold : guardedQuotient.fold (integers .empty) = .error .divisionByZero := rfl
  rw [evaluate, read_spelling grammatical_guardedQuotient, hfold] at hvalue
  cases hvalue

end SmallC.Condition
