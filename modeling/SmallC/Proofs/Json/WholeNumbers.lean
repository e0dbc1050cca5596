import Mathlib.Tactic.Ring
import SmallC.Constant
import SmallC.Proofs.Json.RoundTrip

/-!
# Whole numbers in single precision

A whole number of up to 24 bits is a value of single precision, and so is no other fraction that
its shortest decimal could be: the decimal is the number itself, and it is read in double precision
as the value that it was written for. Larger whole numbers are rounded, and their decimals may be
other numbers.
-/

namespace SmallC

namespace Binary

/-! ## Rounding -/

/-- Powers of two move the leading bit. -/
theorem log2_mul_pow {n : Nat} (hn : n ≠ 0) (k : Nat) : (n * 2 ^ k).log2 = n.log2 + k := by
  induction k with
  | zero => simp
  | succ k ih =>
    have hne : n * 2 ^ k ≠ 0 := Nat.mul_ne_zero hn (Nat.pow_pos (by decide)).ne'
    have htwice : n * 2 ^ (k + 1) = 2 * (n * 2 ^ k) := by ring
    rw [htwice, Nat.log2_two_mul hne, ih, Nat.add_assoc]

/-- A fraction is rounded in the same way if it is scaled. -/
theorem roundQuotient_mul (num den : Nat) {c : Nat} (hc : 0 < c) :
    roundQuotient (num * c) (den * c) = roundQuotient num den := by
  have htwice (r : Nat) : 2 * (r * c) = 2 * r * c := (Nat.mul_assoc 2 r c).symm
  simp only [roundQuotient, Nat.mul_div_mul_right _ _ hc, Nat.mul_mod_mul_right, htwice,
    Nat.mul_lt_mul_right hc, Nat.mul_left_inj hc.ne']

/-- A fraction that is whole is not rounded. -/
theorem roundQuotient_one (n : Nat) : roundQuotient n 1 = n := by
  simp [roundQuotient, Nat.mod_one]

/-- Rounding to the nearest never gives less than rounding down. -/
theorem div_le_roundQuotient (num den : Nat) : num / den ≤ roundQuotient num den := by
  unfold roundQuotient
  dsimp only
  split
  · exact Nat.le_succ _
  · exact Nat.le_refl _

/-- Scaling a fraction by a power of two commutes with scaling it by a factor. -/
theorem scaled_mul (num den c : Nat) (e : Int) :
    scaled (num * c) (den * c) e = ((scaled num den e).1 * c, (scaled num den e).2 * c) := by
  unfold scaled
  split
  · simp only [Nat.shiftLeft_eq, Nat.mul_right_comm]
  · simp only [Nat.shiftLeft_eq, Nat.mul_right_comm]

/-- The exponent of a fraction does not depend on how it is scaled. -/
theorem exponentOf_mul_pow {num den : Nat} (hnum : num ≠ 0) (hden : den ≠ 0) (k : Nat) :
    exponentOf (num * 2 ^ k) (den * 2 ^ k) = exponentOf num den := by
  have hguess : (((num.log2 + k : Nat) : Int) - (den.log2 + k : Nat)) = num.log2 - den.log2 := by
    omega
  simp only [exponentOf, log2_mul_pow hnum, log2_mul_pow hden, hguess, scaled_mul,
    Nat.mul_le_mul_right_iff (Nat.two_pow_pos k)]

/-- A fraction may be given with a common power of two. -/
theorem Format.round_mul_pow (f : Format) (negative : Bool) (num : Nat) {den : Nat} (hden : den ≠ 0)
    (k : Nat) : f.round negative (num * 2 ^ k) (den * 2 ^ k) = f.round negative num den := by
  by_cases hnum : num = 0
  · simp [Format.round, hnum]
  · have hne : num * 2 ^ k ≠ 0 := Nat.mul_ne_zero hnum (Nat.two_pow_pos k).ne'
    simp only [Format.round, hnum, hne, exponentOf_mul_pow hnum hden, scaled_mul,
      roundQuotient_mul _ _ (Nat.two_pow_pos k)]

/-- The exponent of a whole number is the place of its leading bit. -/
theorem exponentOf_one {n : Nat} (hn : n ≠ 0) : exponentOf n 1 = n.log2 := by
  have hlog : Nat.log2 1 = 0 := by decide
  have hle : 1 * 2 ^ n.log2 ≤ n := by
    rw [Nat.one_mul]
    exact Nat.log2_self_le hn
  simp [exponentOf, scaled, hlog, Nat.shiftLeft_eq, Nat.log2_self_le hn]

/-! ## Whole numbers of up to 24 bits -/

/-- No whole number is so small that its single has fewer bits than it could. -/
theorem single_exponent (g : Nat) :
    max ((g : Int) - ((single.precision : Int) - 1)) single.leastExponent = g - 23 := by
  have hprecision : (single.precision : Int) = 24 := rfl
  have hleast : single.leastExponent = -149 := by decide
  omega

/-- A positive whole number of up to 24 bits is kept; its mantissa is shifted to the left. -/
theorem single_round_whole (negative : Bool) {n : Nat} (hn : n ≠ 0) (hlt : n < 2 ^ 24) :
    single.round negative n 1 = .finite negative (n * 2 ^ (23 - n.log2)) (n.log2 - 23) := by
  have hlog : n.log2 < 24 := (Nat.log2_lt hn).mpr hlt
  have hscaled : scaled n 1 (n.log2 - 23) = (n * 2 ^ (23 - n.log2), 1) := by
    have hshift : (-((n.log2 : Int) - 23)).toNat = 23 - n.log2 := by omega
    unfold scaled
    split
    · have hfull : n.log2 = 23 := by omega
      simp [hfull]
    · rw [hshift, Nat.shiftLeft_eq]
  have hmantissa : n * 2 ^ (23 - n.log2) < 2 ^ 24 := by
    have hpower : 2 ^ (n.log2 + 1) * 2 ^ (23 - n.log2) = 2 ^ 24 := by
      rw [← Nat.pow_add]
      congr 1
      omega
    rw [← hpower]
    exact Nat.mul_lt_mul_of_pos_right Nat.lt_log2_self (Nat.two_pow_pos _)
  have hfit : n * 2 ^ (23 - n.log2) ≠ 1 <<< single.precision := hmantissa.ne
  have hne : n * 2 ^ (23 - n.log2) ≠ 0 := Nat.mul_ne_zero hn (Nat.two_pow_pos _).ne'
  have hgreatest : ¬ single.greatestExponent < (n.log2 : Int) - 23 := by
    have hsingle : single.greatestExponent = 104 := by decide
    omega
  simp only [Format.round, hn, if_false, exponentOf_one hn, single_exponent, hscaled,
    roundQuotient_one, hfit, hne, hgreatest]

/-- A larger whole number has a positive exponent, if it is finite at all. -/
theorem le_of_single_round {negative sign : Bool} {n m : Nat} {e : Int} (hn : 2 ^ 24 ≤ n)
    (h : single.round negative n 1 = .finite sign m e) : 2 ^ 23 ≤ m ∧ 1 ≤ e := by
  have hne : n ≠ 0 := by omega
  have hlog : 24 ≤ n.log2 := (Nat.le_log2 hne).mpr hn
  have hscaled : scaled n 1 (n.log2 - 23) = (n, 2 ^ (n.log2 - 23)) := by
    have hshift : ((n.log2 : Int) - 23).toNat = n.log2 - 23 := by omega
    rw [scaled, if_pos (by omega), hshift, Nat.shiftLeft_eq, Nat.one_mul]
  have hquotient : 2 ^ 23 ≤ roundQuotient n (2 ^ (n.log2 - 23)) := by
    refine le_trans ?_ (div_le_roundQuotient n _)
    rw [Nat.le_div_iff_mul_le (Nat.two_pow_pos _), ← Nat.pow_add, Nat.add_sub_cancel' (by omega)]
    exact Nat.log2_self_le hne
  -- Rounding up may lead to the next power of two, which has one bit more.
  obtain ⟨q, e', hq, he', hround⟩ : ∃ (q : Nat) (e' : Int), 2 ^ 23 ≤ q ∧ 1 ≤ e' ∧
      single.round negative n 1 = if q = 0 then .finite negative 0 0
        else if single.greatestExponent < e' then .infinite negative
        else .finite negative q e' := by
    simp only [Format.round, hne, if_false, exponentOf_one hne, single_exponent, hscaled]
    split
    · exact ⟨1 <<< (single.precision - 1), _, Nat.le_refl _, by omega, rfl⟩
    · exact ⟨_, _, hquotient, by omega, rfl⟩
  rw [hround, if_neg (by omega)] at h
  split at h
  · cases h
  · cases h
    exact ⟨hq, he'⟩

/-- No whole number but zero is rounded to zero. -/
theorem single_round_ne_zero (negative sign : Bool) {n : Nat} (hn : n ≠ 0) (e : Int) :
    single.round negative n 1 ≠ .finite sign 0 e := by
  intro h
  by_cases hlt : n < 2 ^ 24
  · rw [single_round_whole negative hn hlt] at h
    exact Nat.mul_ne_zero hn (Nat.two_pow_pos _).ne' (Binary.finite.inj h).2.1
  · have hle := (le_of_single_round (Nat.not_lt.mp hlt) h).1
    omega

/-- A whole number of up to 24 bits is the only whole number that is rounded to its value. -/
theorem single_round_inj {n k : Nat} (hn : n < 2 ^ 24)
    (h : single.round false k 1 = single.round false n 1) : k = n := by
  have hzero : single.round false 0 1 = .finite false 0 0 := rfl
  by_cases hn0 : n = 0
  · subst hn0
    by_contra hk
    exact single_round_ne_zero false false hk 0 (h.trans hzero)
  have hk0 : k ≠ 0 := by
    rintro rfl
    exact single_round_ne_zero false false hn0 0 (h.symm.trans hzero)
  have hlog : n.log2 < 24 := (Nat.log2_lt hn0).mpr hn
  rw [single_round_whole false hn0 hn] at h
  have hk : k < 2 ^ 24 := by
    by_contra hk
    have hle := (le_of_single_round (Nat.not_lt.mp hk) h).2
    omega
  rw [single_round_whole false hk0 hk] at h
  obtain ⟨-, hmantissa, hexponent⟩ := Binary.finite.inj h
  have hlogs : k.log2 = n.log2 := by omega
  rw [hlogs] at hmantissa
  exact Nat.eq_of_mul_eq_mul_right (Nat.two_pow_pos _) hmantissa

/-- The fraction that a whole number of up to 24 bits is as a value. -/
theorem ratio_whole {n : Nat} (hn : n ≠ 0) (hlt : n < 2 ^ 24) :
    ratio (n * 2 ^ (23 - n.log2)) (n.log2 - 23) =
      (n * 2 ^ (23 - n.log2), 1 * 2 ^ (23 - n.log2)) := by
  have hlog : n.log2 < 24 := (Nat.log2_lt hn).mpr hlt
  have hshift : (-((n.log2 : Int) - 23)).toNat = 23 - n.log2 := by omega
  unfold ratio
  split
  · have hfull : n.log2 = 23 := by omega
    simp [hfull]
  · rw [hshift, Nat.shiftLeft_eq]

end Binary

/-! ## Decimals -/

namespace Decimal

variable {d : Decimal} {n : Nat}

/-- The decimal is a whole number and has no places. -/
def IsWhole (d : Decimal) (n : Nat) : Prop :=
  0 ≤ d.exponent ∧ d.digits * 10 ^ d.exponent.toNat = n

/-- A decimal that is a whole number, as a fraction. -/
theorem IsWhole.ratio_eq (h : d.IsWhole n) : d.ratio = (n, 1) := by
  rw [ratio, if_pos h.1, Nat.pow_eq, h.2]

/-- Zeros at the end of the digits do not change a whole number. -/
theorem IsWhole.trimZeros (h : d.IsWhole n) (fuel : Nat) : (trimZeros fuel d).IsWhole n := by
  induction fuel generalizing d with
  | zero => exact h
  | succ fuel ih =>
    rw [Decimal.trimZeros]
    split
    · rename_i hdigits
      obtain ⟨hexponent, rfl⟩ := h
      refine ih ⟨Int.add_nonneg hexponent (by decide), ?_⟩
      have hsucc : (d.exponent + 1).toNat = d.exponent.toNat + 1 := by omega
      have hten : d.digits / 10 * 10 = d.digits :=
        Nat.div_mul_cancel (Nat.dvd_of_mod_eq_zero hdigits.1)
      dsimp only
      rw [hsucc, Nat.pow_succ, Nat.mul_comm (10 ^ _) 10, ← Nat.mul_assoc, hten]
    · exact h

/-- A decimal without places that reads as a whole number of up to 24 bits is this number. -/
theorem isWhole_of_readsAs (hn : n < 2 ^ 24) (hexponent : 0 ≤ d.exponent)
    (h : readsAs Binary.single (Binary.single.round false n 1) d) : d.IsWhole n := by
  have hratio : d.ratio = (d.digits * 10 ^ d.exponent.toNat, 1) :=
    IsWhole.ratio_eq ⟨hexponent, rfl⟩
  rw [readsAs, hratio] at h
  exact ⟨hexponent, Binary.single_round_inj hn (eq_of_beq h)⟩

/-- The digits of a whole number name the number that they are rounded to. -/
theorem IsWhole.readsAs (h : d.IsWhole n) (f : Binary.Format) :
    readsAs f (f.round false n 1) d := by
  rw [Decimal.readsAs, h.ratio_eq]
  exact beq_self_eq_true _

/-- A decimal near a number reads as it, and has as many places as its digits call for. -/
theorem of_nearest? {f : Binary.Format} {x : Binary} {num den count : Nat} {k : Int}
    (h : nearest? f x num den k count = some d) : readsAs f x d ∧ d.exponent = k - count := by
  unfold nearest? at h
  dsimp only at h
  split at h
  · rename_i hbelow habove
    split at h
    · cases h
      exact ⟨hbelow, rfl⟩
    · cases h
      exact ⟨habove, rfl⟩
  · rename_i hbelow _
    cases h
    exact ⟨hbelow, rfl⟩
  · rename_i habove
    cases h
    exact ⟨habove, rfl⟩
  · cases h

/-- A number with all of its digits is near itself. -/
theorem nearest?_ne_none {f : Binary.Format} {x : Binary} {num den count : Nat} {k : Int}
    (h : readsAs f x ⟨(neighbours num den (count - k)).1, k - count⟩) :
    nearest? f x num den k count ≠ none := by
  unfold nearest?
  dsimp only
  rw [h]
  split
  · split <;> exact Option.some_ne_none _
  · exact Option.some_ne_none _
  · rename_i hfalse _
    cases hfalse
  · rename_i hfalse _
    cases hfalse

/-- The candidates are tried with ever more digits. -/
theorem pairwise_digitCounts (f : Binary.Format) : (digitCounts f).Pairwise (· < ·) :=
  List.pairwise_map.mpr (List.pairwise_lt_range.imp Nat.succ_lt_succ)

/-- The shortest decimal of a whole number of up to 24 bits is the number itself. -/
theorem isWhole_shortest (hn : n ≠ 0) (hlt : n < 2 ^ 24) :
    (shortest Binary.single (n * 2 ^ (23 - n.log2)) (n.log2 - 23)).IsWhole n := by
  have hround : Binary.single.round false (n * 2 ^ (23 - n.log2)) (1 * 2 ^ (23 - n.log2)) =
      Binary.single.round false n 1 := Binary.single.round_mul_pow false n (by decide) _
  have hpos : 0 < 1 * 2 ^ (23 - n.log2) := Nat.mul_pos (by decide) (Nat.two_pow_pos _)
  have hdiv : n * 2 ^ (23 - n.log2) / (1 * 2 ^ (23 - n.log2)) = n := by
    rw [Nat.mul_div_mul_right _ _ (Nat.two_pow_pos _), Nat.div_one]
  have hmagnitude : magnitude (n * 2 ^ (23 - n.log2)) (1 * 2 ^ (23 - n.log2)) = digitCount n := by
    rw [magnitude, if_pos (Nat.mul_le_mul_right _ (Nat.one_le_iff_ne_zero.mpr hn)), hdiv]
  unfold shortest
  rw [Binary.ratio_whole hn hlt]
  dsimp only
  rw [hround, hmagnitude]
  -- No more digits are tried than the number has, and these are enough.
  have hall : nearest? Binary.single (Binary.single.round false n 1) (n * 2 ^ (23 - n.log2))
      (1 * 2 ^ (23 - n.log2)) (digitCount n) (digitCount n) ≠ none := by
    refine nearest?_ne_none (IsWhole.readsAs ⟨(Int.sub_self _).ge, ?_⟩ _)
    simp only [Int.sub_self, neighbours, Int.toNat_zero, Int.neg_zero, Nat.pow_eq, Nat.pow_zero,
      Nat.mul_one, hdiv]
  have hcount : digitCount n ∈ digitCounts Binary.single := by
    have hfew : (Nat.toDigits 10 n).length ≤ 9 :=
      (Nat.length_toDigits_le_iff (by decide) (by decide)).mpr (by omega)
    have hsome : 0 < (Nat.toDigits 10 n).length := Nat.length_toDigits_pos
    exact List.mem_map.mpr ⟨digitCount n - 1,
      List.mem_range.mpr (Nat.sub_one_lt_of_le hsome hfew), Nat.sub_add_cancel hsome⟩
  split
  · rename_i d hd
    obtain ⟨fewer, count, more, hcounts, hnearest, hnone⟩ := List.findSome?_eq_some_iff.mp hd
    have hle : count ≤ digitCount n := by
      rw [hcounts] at hcount
      have hpairwise := pairwise_digitCounts Binary.single
      rw [hcounts, List.pairwise_append, List.pairwise_cons] at hpairwise
      rcases List.mem_append.mp hcount with hfewer | hmore
      · exact absurd (hnone _ hfewer) hall
      rcases List.mem_cons.mp hmore with heq | hmore
      · exact heq.ge
      · exact (hpairwise.2.1.1 _ hmore).le
    obtain ⟨hreads, hexponent⟩ := of_nearest? hnearest
    exact (isWhole_of_readsAs hlt (by omega) hreads).trimZeros _
  · rename_i hnone
    exact absurd (List.findSome?_eq_none_iff.mp hnone _ hcount) hall

end Decimal

/-! ## Reading whole numbers -/

/-- A value is not finite, or it is a whole number rounded to single precision. -/
def Binary.IsWhole (x : Binary) : Prop :=
  x = .nan ∨ (∃ negative, x = .infinite negative) ∨
    ∃ negative n, x = Binary.single.round negative n 1

/-- A literal gives a variable a whole number, if it gives it a finite value. -/
theorem Literal.isWhole_toSingle (literal : Literal) : literal.toSingle.IsWhole := by
  cases literal with
  | whole n => exact .inr (.inr ⟨false, n.toNat, rfl⟩)
  | fractional x =>
    cases x with
    | nan => exact .inl rfl
    | infinite negative => exact .inr (.inl ⟨negative, rfl⟩)
    | finite negative m e =>
      refine .inr (.inr
        ⟨negative, Binary.roundQuotient (Binary.ratio m e).1 (Binary.ratio m e).2, ?_⟩)
      simp [toSingle, Binary.roundWhole, Binary.Format.convert, Binary.ratio]

/-- The number that is nearest to the digits of a whole number is that of the whole number. -/
theorem Binary.Format.nearest_isWhole {d : Decimal} {n : Nat} (h : d.IsWhole n) (f : Format)
    (negative : Bool) : f.nearest negative d = f.round negative n 1 := by
  rw [nearest, h.ratio_eq]
  simp [Rat.mkRat_one]

namespace Json

/-- A floating-point value in double precision; what is not finite is nothing. -/
def widened : Binary → Json
  | .nan => .null
  | .infinite _ => .null
  | .finite negative m e => .real Binary.double (Binary.double.convert (.finite negative m e))

/-- A whole number of up to 24 bits is read as the value that it was written for. -/
theorem reread_round (negative : Bool) {n : Nat} (hlt : n < 2 ^ 24) :
    reread Binary.single (Binary.single.round negative n 1) =
      widened (Binary.single.round negative n 1) := by
  by_cases hn : n = 0
  · subst hn
    rfl
  · have hne : n * 2 ^ (23 - n.log2) ≠ 0 := Nat.mul_ne_zero hn (Nat.two_pow_pos _).ne'
    have hdecimal := Binary.double.nearest_isWhole (Decimal.isWhole_shortest hn hlt) negative
    have hround := Binary.double.round_mul_pow negative n (by decide : 1 ≠ 0) (23 - n.log2)
    rw [Binary.single_round_whole negative hn hlt, reread, widened, Binary.Format.decimal,
      if_neg hne, hdecimal, Binary.Format.convert, Binary.ratio_whole hn hlt]
    exact congrArg _ hround.symm

/-- A value of less than `2 ^ 24` that a literal gives a variable is read as it was written. -/
theorem reread_eq_widened {x : Binary} (h : x.IsWhole)
    (hsmall : ∀ negative m e, x = .finite negative m e →
      (Binary.ratio m e).1 < 2 ^ 24 * (Binary.ratio m e).2) :
    reread Binary.single x = widened x := by
  rcases h with rfl | ⟨negative, rfl⟩ | ⟨negative, n, rfl⟩
  · rfl
  · rfl
  by_cases hlt : n < 2 ^ 24
  · exact reread_round negative hlt
  · cases hx : Binary.single.round negative n 1 with
    | nan => rfl
    | infinite sign => rfl
    | finite sign m e =>
      obtain ⟨hm, he⟩ := Binary.le_of_single_round (Nat.not_lt.mp hlt) hx
      have hvalue := hsmall sign m e hx
      obtain ⟨k, rfl⟩ : ∃ k : Nat, e = k + 1 := ⟨(e - 1).toNat, by omega⟩
      have hratio : Binary.ratio m (k + 1) = (m * 2 * 2 ^ k, 1) := by
        rw [Binary.ratio, if_pos (by omega), Nat.shiftLeft_eq, Int.toNat_natCast_add_one,
          Nat.pow_succ', Nat.mul_assoc]
      rw [hratio] at hvalue
      have hle : m * 2 ≤ m * 2 * 2 ^ k := Nat.le_mul_of_pos_right _ (Nat.two_pow_pos k)
      omega

end Json

end SmallC
