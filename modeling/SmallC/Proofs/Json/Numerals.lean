import Mathlib.Tactic.Ring
import SmallC.Proofs.Json.Reading

/-!
# Written numbers

A whole number is written with its digits. A floating-point value is written as the shortest
decimal that reads as it in its own format, in positional notation or with a power of ten. Either
way the number that is read is the one that was written: the whole number, or the value in double
precision that is nearest to the decimal.
-/

namespace SmallC

/-! ## Digits -/

namespace Text

/-- The decimal digits of a number are digits. -/
theorem isDigit_of_mem_toDigits {n : Nat} {c : Char} (hc : c ∈ Nat.toDigits 10 n) : isDigit c := by
  have hdigit : c.isDigit := Nat.isDigit_of_mem_toDigits (by decide) (by decide) hc
  simpa [isDigit, Char.isDigit, Char.le_def] using hdigit

/-- Zeros are digits. -/
theorem isDigit_of_mem_zeros {count : Nat} {c : Char} (hc : c ∈ List.replicate count '0') :
    isDigit c := by
  rw [List.eq_of_mem_replicate hc]
  rfl

/-- Each zero at the end multiplies by ten. -/
theorem numberFrom_zeros (value count : Nat) :
    numberFrom 10 value (List.replicate count '0') = some (value * 10 ^ count) := by
  induction count generalizing value with
  | zero => simp [numberFrom]
  | succ count ih =>
    have hzero : digitValue '0' = some 0 := by decide
    have hpower : value * 10 * 10 ^ count = value * 10 ^ (count + 1) := by ring
    rw [List.replicate_succ, numberFrom, hzero]
    simpa [hpower] using ih (value * 10)

/-- Zeros behind the digits of a number multiply it by a power of ten. -/
theorem number?_append_zeros (n count : Nat) :
    number? 10 (Nat.toDigits 10 n ++ List.replicate count '0') = some (n * 10 ^ count) := by
  have hne : Nat.toDigits 10 n ≠ [] := List.length_pos_iff.mp Nat.length_toDigits_pos
  refine number?_eq_some_iff.mpr ⟨List.append_ne_nil_of_left_ne_nil hne _, ?_⟩
  rw [numberFrom_append, numberFrom_toDigits (by decide) (by decide), Option.bind_some,
    numberFrom_zeros]

end Text

/-! ## Decimals -/

namespace Binary.Format

/-- A value that is nearest to a decimal is so whichever power of ten the decimal is given by. -/
theorem nearest_shift (f : Format) (negative : Bool) (digits count : Nat) :
    f.nearest negative ⟨digits * 10 ^ (count + 1), -1⟩ = f.nearest negative ⟨digits, count⟩ := by
  have hratio : mkRat (digits * 10 ^ (count + 1) : Nat) 10 =
      mkRat (digits * 10 ^ count : Nat) 1 := by
    rw [Rat.mkRat_eq_iff (by decide) (by decide)]
    push_cast
    ring
  have hshifted : Decimal.ratio ⟨digits * 10 ^ (count + 1), -1⟩ =
      (digits * 10 ^ (count + 1), 10) := rfl
  have hplain : Decimal.ratio ⟨digits, count⟩ = (digits * 10 ^ count, 1) := by
    simp [Decimal.ratio]
  simp only [nearest, hshifted, hplain, hratio]

/-- The decimal that a finite value is written as. -/
def decimal (f : Format) (m : Nat) (e : Int) : Decimal :=
  if m = 0 then ⟨0, 0⟩ else Decimal.shortest f m e

end Binary.Format

namespace Decimal

/-- A decimal that is zero has no zeros to be written behind it. -/
def Plain (d : Decimal) : Prop := d.digits = 0 → d.exponent ≤ 0

/-- A number of more than `k` digits is not below the power of ten with `k` zeros. -/
theorem pow_le_of_digitCount {n k : Nat} (hk : 0 < k) (h : k < digitCount n) : 10 ^ k ≤ n := by
  have hcount : ¬ (Nat.toDigits 10 n).length ≤ k := Nat.not_le.mpr h
  rwa [Nat.length_toDigits_le_iff (by decide) hk, Nat.not_lt] at hcount

/-- A decimal below a value of its magnitude is zero only if it has places. -/
theorem plain_neighbour {num den count : Nat} (hcount : 0 < count) :
    Plain ⟨(neighbours num den (count - magnitude num den)).1, magnitude num den - count⟩ := by
  intro hzero
  dsimp only at hzero ⊢
  by_contra hpos
  have hle : den ≤ num := by
    by_contra hlt
    rw [magnitude, if_neg hlt] at hpos
    omega
  rw [magnitude, if_pos hle] at hzero hpos
  obtain ⟨zeros, hzeros⟩ : ∃ zeros : Nat, (digitCount (num / den) : Int) - count = zeros :=
    ⟨_, (Int.toNat_of_nonneg (by omega)).symm⟩
  have hshift : (count : Int) - digitCount (num / den) = -zeros := by omega
  have hquotient : 10 ^ zeros ≤ num / den := pow_le_of_digitCount (by omega) (by omega)
  rw [hshift, neighbours] at hzero
  simp only [Int.toNat_neg_natCast, Int.neg_neg, Int.toNat_natCast, Nat.pow_eq, Nat.pow_zero,
    Nat.mul_one, ← Nat.div_div_eq_div_mul] at hzero
  exact absurd hzero (Nat.div_pos hquotient (Nat.pow_pos (by decide))).ne'

/-- The decimal that is nearest to a number has no zeros behind it if it is zero itself. -/
theorem plain_of_nearest? {f : Binary.Format} {x : Binary} {num den count : Nat} {d : Decimal}
    (hcount : 0 < count) (h : nearest? f x num den (magnitude num den) count = some d) :
    d.Plain := by
  have habove (low : Nat) (exponent : Int) : Plain ⟨low + 1, exponent⟩ := nofun
  unfold nearest? at h
  dsimp only at h
  split at h
  · split at h
    · cases h
      exact plain_neighbour hcount
    · cases h
      exact habove _ _
  · cases h
    exact plain_neighbour hcount
  · cases h
    exact habove _ _
  · cases h

/-- Dropping zeros at the end puts none behind a decimal that is zero. -/
theorem plain_trimZeros {d : Decimal} (h : d.Plain) (fuel : Nat) : (trimZeros fuel d).Plain := by
  induction fuel generalizing d with
  | zero => exact h
  | succ fuel ih =>
    rw [trimZeros]
    split
    · rename_i hdigits
      refine ih fun hzero => ?_
      dsimp only at hzero
      omega
    · exact h

/-- The shortest decimal that names a number has no zeros behind it if it is zero itself. -/
theorem plain_shortest (f : Binary.Format) (m : Nat) (e : Int) : (shortest f m e).Plain := by
  unfold shortest
  dsimp only
  split
  · rename_i d hd
    obtain ⟨count, hcount, hd⟩ := List.exists_of_findSome?_eq_some hd
    obtain ⟨n, -, rfl⟩ := List.mem_map.mp hcount
    exact plain_trimZeros (plain_of_nearest? (Nat.succ_pos n) hd) _
  · exact fun _ => Int.le_refl 0

end Decimal

namespace Json.Numeral

variable {negative : Bool} {d : Decimal}

/-! ## Whole numbers -/

/-- The number that a whole number is written as. -/
def ofWhole (n : Int) : Numeral := ⟨n < 0, Nat.toDigits 10 n.natAbs, [], []⟩

/-- Whole numbers are written as JSON allows. -/
theorem wellFormed_ofWhole (n : Int) : (ofWhole n).WellFormed where
  nonempty := List.length_pos_iff.mp Nat.length_toDigits_pos
  digits _ := Text.isDigit_of_mem_toDigits
  leading := Text.toDigits_ne_zero_cons n.natAbs
  places _ hd := by cases hd
  power := .inl rfl

/-- The text of a whole number is its sign and its digits. -/
theorem text_ofWhole (n : Int) : (ofWhole n).text = (toString n).toList := by
  rw [Int.toString_eq_repr]
  cases n with
  | ofNat n => simp [ofWhole, text, Int.repr, Nat.repr_eq_ofList_toDigits]
  | negSucc n =>
    have hsign : Int.negSucc n < 0 := Int.negSucc_lt_zero n
    simp [ofWhole, text, Int.repr, Nat.repr_eq_ofList_toDigits, hsign]

/-- A whole number is read back as itself. -/
theorem value_ofWhole (n : Int) : (ofWhole n).value = .whole n := by
  have hdigits : Text.number? 10 (Nat.toDigits 10 n.natAbs) = some n.natAbs :=
    Text.number?_toDigits (by decide) (by decide) _
  simp only [value, ofWhole, List.append_nil, hdigits, and_self, if_true, Option.getD_some,
    decide_eq_true_eq]
  congr 1
  split <;> omega

/-- A number with a point and without a power of ten is read in double precision. -/
theorem value_of_places {digits places : List Char} {n : Nat} (hne : places ≠ [])
    (hdigits : Text.number? 10 (digits ++ places) = some n) :
    value ⟨negative, digits, places, []⟩ =
      .real Binary.double (Binary.double.nearest negative ⟨n, 0 - places.length⟩) := by
  have hpower : Text.signed? 10 [] = none := rfl
  simp [value, hne, hdigits, hpower]

/-! ## Positional notation -/

/-- The number that a decimal is written as in positional notation, always with a point. -/
def ofPositional (negative : Bool) (d : Decimal) : Numeral :=
  let ds := Nat.toDigits 10 d.digits
  if 0 ≤ d.exponent then ⟨negative, ds ++ List.replicate d.exponent.toNat '0', ['0'], []⟩
  else
    let places := (-d.exponent).toNat
    if places < ds.length then
      ⟨negative, ds.take (ds.length - places), ds.drop (ds.length - places), []⟩
    else ⟨negative, ['0'], List.replicate (places - ds.length) '0' ++ ds, []⟩

/-- The text of a number with its digits in place: a fraction of zero stands behind a number that
has none of its own. -/
theorem text_ofPositional (negative : Bool) (d : Decimal) :
    (ofPositional negative d).text = (if negative then ['-'] else []) ++
      (d.positional ++ if 0 ≤ d.exponent then ['.', '0'] else []) := by
  unfold ofPositional Decimal.positional
  dsimp only
  split
  · simp [text]
  split
  · rename_i hplaces
    have hdrop : (Nat.toDigits 10 d.digits).drop
        ((Nat.toDigits 10 d.digits).length - (-d.exponent).toNat) ≠ [] := by
      simp
      omega
    simp [text, hdrop]
  · have hne : Nat.toDigits 10 d.digits ≠ [] := List.length_pos_iff.mp Nat.length_toDigits_pos
    simp [text, hne]

/-- Numbers with their digits in place are written as JSON allows. -/
theorem wellFormed_ofPositional (negative : Bool) (h : d.Plain) :
    (ofPositional negative d).WellFormed := by
  have hne : Nat.toDigits 10 d.digits ≠ [] := List.length_pos_iff.mp Nat.length_toDigits_pos
  unfold ofPositional
  dsimp only
  split
  · rename_i hexponent
    refine ⟨List.append_ne_nil_of_left_ne_nil hne _, fun c hc => ?_, fun c cs hcs => ?_,
      by simp [Text.isDigit], .inl rfl⟩
    · rcases List.mem_append.mp hc with hc | hc
      · exact Text.isDigit_of_mem_toDigits hc
      · exact Text.isDigit_of_mem_zeros hc
    · rcases Nat.eq_zero_or_pos d.digits with hzero | hpos
      · have hexponent' : d.exponent.toNat = 0 := Int.toNat_of_nonpos (h hzero)
        rw [hzero, hexponent'] at hcs
        cases hcs
      · obtain ⟨e, es, hes⟩ := List.exists_cons_of_ne_nil hne
        have hhead := Text.head?_toDigits_ne_zero hpos
        rw [hes] at hcs hhead
        exact hhead (congrArg List.head? hcs)
  split
  · rename_i hplaces
    refine ⟨?_, fun c hc => Text.isDigit_of_mem_toDigits (List.mem_of_mem_take hc),
      fun c cs hcs => ?_, fun c hc => Text.isDigit_of_mem_toDigits (List.mem_of_mem_drop hc),
      .inl rfl⟩
    · simp only [ne_eq, List.take_eq_nil_iff, hne, or_false]
      omega
    · have hdigits := List.take_append_drop
        ((Nat.toDigits 10 d.digits).length - (-d.exponent).toNat) (Nat.toDigits 10 d.digits)
      dsimp only at hcs
      rw [hcs] at hdigits
      exact Text.toDigits_ne_zero_cons d.digits c _ hdigits.symm
  · refine ⟨List.cons_ne_nil _ _, by simp [Text.isDigit], by simp, fun c hc => ?_, .inl rfl⟩
    rcases List.mem_append.mp hc with hc | hc
    · exact Text.isDigit_of_mem_zeros hc
    · exact Text.isDigit_of_mem_toDigits hc

/-- A number with its digits in place is read back as the nearest double. -/
theorem value_ofPositional (negative : Bool) (d : Decimal) :
    (ofPositional negative d).value = .real Binary.double (Binary.double.nearest negative d) := by
  obtain ⟨digits, exponent⟩ := d
  have hne : Nat.toDigits 10 digits ≠ [] := List.length_pos_iff.mp Nat.length_toDigits_pos
  have hdigits : Text.number? 10 (Nat.toDigits 10 digits) = some digits :=
    Text.number?_toDigits (by decide) (by decide) digits
  have hbefore := Text.number?_zeros_append (by decide : 1 < 10) (by decide) digits
  have hbehind := Text.number?_append_zeros digits
  unfold ofPositional
  dsimp only
  generalize Nat.toDigits 10 digits = ds at hne hdigits hbefore hbehind
  split
  · rename_i hexponent
    obtain ⟨count, rfl⟩ := Int.eq_ofNat_of_zero_le hexponent
    have hzeros : Text.number? 10 (ds ++ List.replicate count '0' ++ ['0']) =
        some (digits * 10 ^ (count + 1)) := by
      rw [List.append_assoc, ← List.replicate_succ', hbehind]
    rw [Int.toNat_natCast, value_of_places (List.cons_ne_nil _ _) hzeros,
      ← Binary.Format.nearest_shift]
    rfl
  split
  · have hparts : Text.number? 10 (ds.take (ds.length - (-exponent).toNat) ++
        ds.drop (ds.length - (-exponent).toNat)) = some digits := by
      rwa [List.take_append_drop]
    have hdrop : ds.drop (ds.length - (-exponent).toNat) ≠ [] := by
      simp
      omega
    have hlength : (0 : Int) - (ds.drop (ds.length - (-exponent).toNat)).length = exponent := by
      rw [List.length_drop]
      omega
    rw [value_of_places hdrop hparts, hlength]
  · have hzeros : Text.number? 10 (['0'] ++ (List.replicate ((-exponent).toNat - ds.length) '0' ++
        ds)) = some digits := by
      rw [← List.append_assoc, List.singleton_append, ← List.replicate_succ, hbefore]
    have hlength : (0 : Int) - (List.replicate ((-exponent).toNat - ds.length) '0' ++ ds).length =
        exponent := by
      rw [List.length_append, List.length_replicate]
      omega
    rw [value_of_places (List.append_ne_nil_of_right_ne_nil _ hne) hzeros, hlength]

/-! ## Powers of ten -/

/-- A power of ten with its sign and at least two digits. -/
def powerText (power : Int) : List Char :=
  let size := Nat.toDigits 10 power.natAbs
  (if 0 ≤ power then '+' else '-') :: if size.length < 2 then '0' :: size else size

/-- The power of ten behind a number is read back, with its sign. -/
theorem signed?_powerText (power : Int) : Text.signed? 10 (powerText power) = some power := by
  have hsize : Text.number? 10 (if (Nat.toDigits 10 power.natAbs).length < 2
      then '0' :: Nat.toDigits 10 power.natAbs else Nat.toDigits 10 power.natAbs) =
      some power.natAbs := by
    split
    · exact Text.number?_zeros_append (by decide) (by decide) power.natAbs 1
    · exact Text.number?_toDigits (by decide) (by decide) power.natAbs
  unfold powerText
  dsimp only
  split
  · rename_i hsign
    rw [Text.signed?, hsize, Option.map_some]
    exact congrArg some (Int.natAbs_of_nonneg hsign)
  · rename_i hsign
    rw [Text.signed?, hsize, Option.map_some]
    refine congrArg some ?_
    change -(power.natAbs : Int) = power
    omega

/-- The number that a decimal is written as with a power of ten. -/
def ofScientific (negative : Bool) (d : Decimal) : Numeral :=
  let ds := Nat.toDigits 10 d.digits
  ⟨negative, ds.take 1, ds.drop 1, powerText (d.exponent + ds.length - 1)⟩

/-- The text of a number with a power of ten behind it. -/
theorem text_ofScientific (negative : Bool) (d : Decimal) :
    (ofScientific negative d).text = (if negative then ['-'] else []) ++ d.scientific := by
  simp only [ofScientific, Decimal.scientific, text, List.drop_eq_nil_iff, List.append_assoc]
  rfl

/-- Numbers with a power of ten are written as JSON allows. -/
theorem wellFormed_ofScientific (negative : Bool) (d : Decimal) :
    (ofScientific negative d).WellFormed where
  nonempty := by
    have hne : Nat.toDigits 10 d.digits ≠ [] := List.length_pos_iff.mp Nat.length_toDigits_pos
    simp [ofScientific, hne]
  digits c hc := Text.isDigit_of_mem_toDigits (List.mem_of_mem_take hc)
  leading c cs hcs := by
    have hlength := congrArg List.length hcs
    simp [ofScientific] at hlength
    omega
  places c hc := Text.isDigit_of_mem_toDigits (List.mem_of_mem_drop hc)
  power := by
    refine .inr ⟨_, _, rfl, ?_, ?_, fun c hc => ?_⟩
    · split <;> simp
    · split
      · exact List.cons_ne_nil _ _
      · exact List.length_pos_iff.mp Nat.length_toDigits_pos
    · split at hc
      · rcases List.mem_cons.mp hc with rfl | hc
        · rfl
        · exact Text.isDigit_of_mem_toDigits hc
      · exact Text.isDigit_of_mem_toDigits hc

/-- A number with a power of ten is read back as the nearest double. -/
theorem value_ofScientific (negative : Bool) (d : Decimal) :
    (ofScientific negative d).value = .real Binary.double (Binary.double.nearest negative d) := by
  obtain ⟨digits, exponent⟩ := d
  have hlength : 0 < (Nat.toDigits 10 digits).length := Nat.length_toDigits_pos
  have hdigits : Text.number? 10 ((Nat.toDigits 10 digits).take 1 ++
      (Nat.toDigits 10 digits).drop 1) = some digits := by
    rw [List.take_append_drop]
    exact Text.number?_toDigits (by decide) (by decide) digits
  have hpower (power : Int) : powerText power ≠ [] := List.cons_ne_nil _ _
  have hexponent : exponent + (Nat.toDigits 10 digits).length - 1 -
      ((Nat.toDigits 10 digits).drop 1).length = exponent := by
    rw [List.length_drop]
    omega
  simp only [value, ofScientific, hpower, and_false, if_false, hdigits, Option.getD_some,
    signed?_powerText, hexponent]

/-! ## Floating-point values -/

/-- The number that a finite floating-point value is written as. -/
def ofReal (f : Binary.Format) (negative : Bool) (m : Nat) (e : Int) : Numeral :=
  let d := f.decimal m e
  if m ≠ 0 ∧ f.positionalDigits < d.exponent + Decimal.digitCount d.digits
  then ofScientific negative d else ofPositional negative d

/-- Every finite number is written as JSON allows, in whichever of the two ways. -/
theorem wellFormed_ofReal (f : Binary.Format) (negative : Bool) (m : Nat) (e : Int) :
    (ofReal f negative m e).WellFormed := by
  have hplain : (f.decimal m e).Plain := by
    unfold Binary.Format.decimal
    split
    · exact fun _ => Int.le_refl 0
    · exact Decimal.plain_shortest f m e
  unfold ofReal
  dsimp only
  split
  · exact wellFormed_ofScientific negative _
  · exact wellFormed_ofPositional negative hplain

/-- A finite number is read back as the double that is nearest to the digits that name it. -/
theorem value_ofReal (f : Binary.Format) (negative : Bool) (m : Nat) (e : Int) :
    (ofReal f negative m e).value =
      .real Binary.double (Binary.double.nearest negative (f.decimal m e)) := by
  unfold ofReal
  dsimp only
  split
  · exact value_ofScientific negative _
  · exact value_ofPositional negative _

/-- The text of a finite number is that of its numeral. -/
theorem serialized_finite (f : Binary.Format) (negative : Bool) (m : Nat) (e : Int) :
    f.serialized (.finite negative m e) = some (String.ofList (ofReal f negative m e).text) := by
  have hsigned (cs : List Char) : Binary.signed negative cs =
      String.ofList ((if negative then ['-'] else []) ++ cs) := by
    cases negative <;> rfl
  by_cases hm : m = 0
  · have hreal : ofReal f negative m e = ofPositional negative ⟨0, 0⟩ := by
      simp [ofReal, Binary.Format.decimal, hm]
    rw [Binary.Format.serialized, if_pos hm, hreal, text_ofPositional, hsigned]
    rfl
  · have hdecimal : f.decimal m e = Decimal.shortest f m e := if_neg hm
    rw [Binary.Format.serialized, if_neg hm, ofReal, hdecimal]
    generalize Decimal.shortest f m e = d
    by_cases hfew : d.exponent + Decimal.digitCount d.digits ≤ f.positionalDigits
    · have hpositional : ¬ (m ≠ 0 ∧
          (f.positionalDigits : Int) < d.exponent + Decimal.digitCount d.digits) := by
        omega
      simp only [if_pos hfew, if_neg hpositional, text_ofPositional, hsigned]
    · have hscientific : m ≠ 0 ∧
          (f.positionalDigits : Int) < d.exponent + Decimal.digitCount d.digits := by
        omega
      simp only [if_neg hfew, if_pos hscientific, text_ofScientific, hsigned]

end Json.Numeral

end SmallC
