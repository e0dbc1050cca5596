import SmallC.Proofs.Condition.Reading

/-!
# The value of a condition

The integers are one of the algebras a condition can be read into. Their operators
are those of the whole numbers followed by a reduction to 64 bits, so that a
condition has a value exactly if it is grammatical, its numbers are literals and it
divides by nothing that is zero.
-/

namespace SmallC.Condition

/-- What a test gives is one or zero as the proposition holds that it decides. -/
theorem truth_eq_ofInt {b : Bool} {p : Prop} [Decidable p] (h : b = true ↔ p) :
    truth b = Int64.ofInt (indicator p) := by
  by_cases hp : p
  · rw [h.mpr hp, indicator, if_pos hp]
    rfl
  · rw [Bool.eq_false_iff.mpr fun hb => hp (h.mp hb), indicator, if_neg hp]
    rfl

/-- Only zero is read as zero. -/
theorem toInt_eq_zero_iff {x : Int64} : x.toInt = 0 ↔ x = 0 := by
  rw [← Int64.toInt_zero, Int64.toInt_inj]

/-- An operator before an operand wraps around the whole number it stands for. -/
theorem UnaryOperator.apply_eq (op : UnaryOperator) (x : Int64) :
    op.apply x = Int64.ofInt (op.meaning x.toInt) := by
  cases op with
  | plus => simp [apply, meaning]
  | minus => simp [apply, meaning]
  | not => exact truth_eq_ofInt (by rw [beq_iff_eq, toInt_eq_zero_iff])
  | complement =>
    apply Int64.toInt_inj.mp
    simp [apply, meaning]

/-- The count of a shift is the remainder of its right operand by 64, also where the
operand is negative. -/
theorem shiftCount_eq (y : Int64) : (y.toBitVec.smod 64).toNat = (y.toInt % 64).toNat := by
  have hsmod : (y.toBitVec.smod 64).toInt = y.toInt % 64 := by
    rw [BitVec.toInt_smod]
    exact Int.fmod_eq_emod_of_nonneg _ (by decide)
  have hnonneg := Int.emod_nonneg y.toInt (by decide : (64 : Int) ≠ 0)
  rw [BitVec.toInt_eq_toNat_cond] at hsmod
  split at hsmod <;> omega

/-- Shifting to the left multiplies the whole number, with the count taken modulo 64. -/
theorem shiftLeft_eq (x y : Int64) : x <<< y = Int64.ofInt (x.toInt <<< (y.toInt % 64).toNat) := by
  apply Int64.toBitVec_inj.mp
  have hx : BitVec.ofInt 64 x.toInt = x.toBitVec := BitVec.ofInt_toInt
  change x.toBitVec <<< (y.toBitVec.smod 64).toNat = BitVec.ofInt 64 _
  rw [shiftCount_eq, Int.shiftLeft_eq', BitVec.ofInt_mul, hx, BitVec.shiftLeft_eq_mul_twoPow,
    BitVec.ofInt_natCast]
  congr 1
  apply BitVec.eq_of_toNat_eq
  rw [BitVec.toNat_twoPow, BitVec.toNat_ofNat]

/-- Shifting to the right divides the whole number and rounds down, with the count taken modulo
64. -/
theorem shiftRight_eq (x y : Int64) :
    x >>> y = Int64.ofInt (x.toInt >>> (y.toInt % 64).toNat) := by
  apply Int64.toBitVec_inj.mp
  change x.toBitVec.sshiftRight (y.toBitVec.smod 64).toNat = BitVec.ofInt 64 _
  rw [shiftCount_eq, BitVec.sshiftRight_eq]
  rfl

/-- Dividing rounds towards zero, and the one quotient that is too large wraps around. -/
theorem div_eq (x y : Int64) : x / y = Int64.ofInt (x.toInt.tdiv y.toInt) := by
  apply Int64.toInt_inj.mp
  rw [Int64.toInt_div, Int64.toInt_ofInt]

/-- The remainder has the sign of the dividend. -/
theorem mod_eq (x y : Int64) : x % y = Int64.ofInt (x.toInt.tmod y.toInt) := by
  rw [← Int64.toInt_mod, Int64.ofInt_toInt]

/-- An operation on the bits of two integers is the one on their integers. -/
theorem ofInt_bits (f : BitVec 64 → BitVec 64 → BitVec 64) (x y : Int64) :
    Int64.ofInt (f (BitVec.ofInt 64 x.toInt) (BitVec.ofInt 64 y.toInt)).toInt =
      Int64.ofBitVec (f x.toBitVec y.toBitVec) := by
  apply Int64.toBitVec_inj.mp
  change BitVec.ofInt 64 (f (BitVec.ofInt 64 x.toBitVec.toInt)
    (BitVec.ofInt 64 y.toBitVec.toInt)).toInt = f x.toBitVec y.toBitVec
  simp only [BitVec.ofInt_toInt]

/-- An operator between two operands wraps around the whole number it stands for,
unless it is a division or a remainder by zero, which fails. -/
theorem BinaryOperator.apply_eq_ok_iff {op : BinaryOperator} {x y v : Int64} :
    op.apply x y = .ok v ↔
      (op = .div ∨ op = .mod → y ≠ 0) ∧ Int64.ofInt (op.meaning x.toInt y.toInt) = v := by
  have htruth {b : Bool} {p : Prop} [Decidable p] (h : b = true ↔ p) :
      Except.ok (ε := Fault) (truth b) = .ok v ↔ Int64.ofInt (indicator p) = v := by
    rw [truth_eq_ofInt h, Except.ok.injEq]
  have hbits (f : BitVec 64 → BitVec 64 → BitVec 64) :
      Int64.ofBitVec (f x.toBitVec y.toBitVec) = v ↔
        Int64.ofInt (f (BitVec.ofInt 64 x.toInt) (BitVec.ofInt 64 y.toInt)).toInt = v := by
    rw [ofInt_bits]
  cases op with
  | or => simpa [apply, meaning] using htruth (by simp [toInt_eq_zero_iff])
  | and => simpa [apply, meaning] using htruth (by simp [toInt_eq_zero_iff])
  | eq => simpa [apply, meaning] using htruth (by simp [Int64.toInt_inj])
  | ne => simpa [apply, meaning] using htruth (by simp [Int64.toInt_inj])
  | lt => simpa [apply, meaning] using htruth (by simp [Int64.lt_iff_toInt_lt])
  | gt => simpa [apply, meaning] using htruth (by simp [Int64.lt_iff_toInt_lt])
  | le => simpa [apply, meaning] using htruth (by simp [Int64.le_iff_toInt_le])
  | ge => simpa [apply, meaning] using htruth (by simp [Int64.le_iff_toInt_le])
  | bitOr => simpa [apply, meaning] using hbits (· ||| ·)
  | bitXor => simpa [apply, meaning] using hbits (· ^^^ ·)
  | bitAnd => simpa [apply, meaning] using hbits (· &&& ·)
  | shiftLeft => simp [apply, meaning, shiftLeft_eq]
  | shiftRight => simp [apply, meaning, shiftRight_eq]
  | add => simp [apply, meaning, Int64.ofInt_add]
  | sub => simp [apply, meaning, Int64.ofInt_sub]
  | mul => simp [apply, meaning, Int64.ofInt_mul]
  | div =>
    by_cases hy : y = 0
    · simp [apply, hy]
    · simp [apply, meaning, hy, div_eq]
  | mod =>
    by_cases hy : y = 0
    · simp [apply, hy]
    · simp [apply, meaning, hy, mod_eq]

/-- The integers make a value of an expression exactly if its numbers are literals
and its divisors are not zero, and then they make its value. -/
theorem fold_integers_eq_ok_iff {macros : MacroTable} {e : Expression} {v : Int64} :
    e.fold (integers macros) = .ok v ↔
      e.NumbersReadable ∧ e.DivisorsNonzero macros ∧ e.value macros = v := by
  induction e generalizing v with
  | number text =>
    simp only [Expression.fold, integers, Expression.NumbersReadable, Expression.DivisorsNonzero,
      Expression.value]
    cases number? text.toList <;> simp
  | identifier name =>
    simp [Expression.fold, integers, Expression.NumbersReadable, Expression.DivisorsNonzero,
      Expression.value]
  | isDefined parenthesized name =>
    simp [Expression.fold, integers, Expression.NumbersReadable, Expression.DivisorsNonzero,
      Expression.value, truth_eq_ofInt (Iff.rfl : macros.contains name = true ↔ _)]
  | parentheses inner ih => exact ih
  | unary op operand ih =>
    rw [Expression.fold_unary_eq_ok_iff]
    constructor
    · rintro ⟨x, hx, rfl⟩
      obtain ⟨hnumbers, hdivisors, rfl⟩ := ih.mp hx
      exact ⟨hnumbers, hdivisors, (op.apply_eq _).symm⟩
    · rintro ⟨hnumbers, hdivisors, rfl⟩
      exact ⟨_, ih.mpr ⟨hnumbers, hdivisors, rfl⟩, op.apply_eq _⟩
  | binary op left right ihleft ihright =>
    rw [Expression.fold_binary_eq_ok_iff]
    constructor
    · rintro ⟨x, y, hx, hy, hv⟩
      obtain ⟨hnumbersLeft, hdivisorsLeft, rfl⟩ := ihleft.mp hx
      obtain ⟨hnumbersRight, hdivisorsRight, rfl⟩ := ihright.mp hy
      obtain ⟨hzero, rfl⟩ := BinaryOperator.apply_eq_ok_iff.mp hv
      exact ⟨⟨hnumbersLeft, hnumbersRight⟩, ⟨hdivisorsLeft, hdivisorsRight, hzero⟩, rfl⟩
    · rintro ⟨⟨hnumbersLeft, hnumbersRight⟩, ⟨hdivisorsLeft, hdivisorsRight, hzero⟩, rfl⟩
      exact ⟨_, _, ihleft.mpr ⟨hnumbersLeft, hdivisorsLeft, rfl⟩,
        ihright.mpr ⟨hnumbersRight, hdivisorsRight, rfl⟩,
        BinaryOperator.apply_eq_ok_iff.mpr ⟨hzero, rfl⟩⟩
  | choice condition yes no ihcondition ihyes ihno =>
    have hchoice (c x y : Int64) :
        (integers macros).choice c x y = if c ≠ 0 then x else y := by
      by_cases hc : c = 0 <;> simp [integers, hc]
    rw [Expression.fold_choice_eq_ok_iff]
    constructor
    · rintro ⟨c, x, y, hc, hx, hy, rfl⟩
      obtain ⟨hnumbers, hdivisors, rfl⟩ := ihcondition.mp hc
      obtain ⟨hnumbersYes, hdivisorsYes, rfl⟩ := ihyes.mp hx
      obtain ⟨hnumbersNo, hdivisorsNo, rfl⟩ := ihno.mp hy
      exact ⟨⟨hnumbers, hnumbersYes, hnumbersNo⟩, ⟨hdivisors, hdivisorsYes, hdivisorsNo⟩,
        (hchoice _ _ _).symm⟩
    · rintro ⟨⟨hnumbers, hnumbersYes, hnumbersNo⟩, ⟨hdivisors, hdivisorsYes, hdivisorsNo⟩, rfl⟩
      exact ⟨_, _, _, ihcondition.mpr ⟨hnumbers, hdivisors, rfl⟩,
        ihyes.mpr ⟨hnumbersYes, hdivisorsYes, rfl⟩, ihno.mpr ⟨hnumbersNo, hdivisorsNo, rfl⟩,
        hchoice _ _ _⟩

/-- A condition has the value `v` exactly if its tokens spell an expression of the
grammar whose numbers are literals, which divides by nothing that is zero, and whose
value is `v`. Every operand counts, also one whose value is not needed. Which
texts are literals and what they are worth, `number?_of_isLiteral` says by itself. -/
theorem evaluate_eq_ok_iff (macros : MacroTable) (ts : List DirectiveToken) (v : Int64) :
    evaluate macros ts = .ok v ↔
      ∃ e : Expression, e.Grammatical 11 ∧ e.spelling = ts ∧ e.NumbersReadable ∧
        e.DivisorsNonzero macros ∧ e.value macros = v := by
  unfold evaluate
  rw [read_eq_ok_iff]
  simp only [fold_integers_eq_ok_iff]

end SmallC.Condition
