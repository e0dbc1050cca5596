import SmallC.Text.Digits

/-!
# Reading digits

A text that spells a number in some base consists of digits of this base. The digits that a
number is written with spell it, and nothing else does but the same digits with zeros before them
and with letters of the other case.
-/

namespace SmallC.Text

variable {base n v w d : Nat} {c : Char} {cs : List Char}

/-- A digit multiplies what is before it by the base. -/
theorem numberFrom_cons_eq_some_iff : numberFrom base v (c :: cs) = some n ↔
    ∃ d, digitValue c = some d ∧ d < base ∧ numberFrom base (v * base + d) cs = some n := by
  rw [numberFrom]
  cases digitValue c with
  | none => simp
  | some d => simp

/-- All characters of what is read as a number are digits of the base. -/
theorem exists_digit_of_mem_numberFrom (h : numberFrom base v cs = some n) (hc : c ∈ cs) :
    ∃ d, digitValue c = some d ∧ d < base := by
  induction cs generalizing v with
  | nil => cases hc
  | cons e cs ih =>
    obtain ⟨d, hd, hlt, h⟩ := numberFrom_cons_eq_some_iff.mp h
    rcases List.mem_cons.mp hc with rfl | hc
    · exact ⟨d, hd, hlt⟩
    · exact ih h hc

/-- A number has at least one digit. -/
theorem number?_eq_some_iff :
    number? base cs = some n ↔ cs ≠ [] ∧ numberFrom base 0 cs = some n := by
  cases cs <;> simp [number?]

/-- All characters of a number are digits of its base. -/
theorem exists_digit_of_mem_number? (h : number? base cs = some n) (hc : c ∈ cs) :
    ∃ d, digitValue c = some d ∧ d < base :=
  exists_digit_of_mem_numberFrom (number?_eq_some_iff.mp h).2 hc

/-- Digits are read from left to right, the later ones from the value of the earlier ones. -/
theorem numberFrom_append (base v : Nat) (cs ds : List Char) :
    numberFrom base v (cs ++ ds) = (numberFrom base v cs).bind (numberFrom base · ds) := by
  induction cs generalizing v with
  | nil => rfl
  | cons c cs ih =>
    simp only [List.cons_append, numberFrom]
    split
    · split
      · exact ih _
      · rfl
    · rfl

/-- Digits are read back as their values. -/
theorem digitValue_digitChar : ∀ d < 16, digitValue (Nat.digitChar d) = some d := by
  decide

/-- The digits of a number are read back as the number. -/
theorem numberFrom_toDigits (hbase : 1 < base) (hle : base ≤ 16) (n : Nat) :
    numberFrom base 0 (Nat.toDigits base n) = some n := by
  have hlast (v d : Nat) (hd : d < base) :
      numberFrom base v [Nat.digitChar d] = some (v * base + d) := by
    rw [numberFrom, digitValue_digitChar d (by omega)]
    simp only [hd, if_true, numberFrom]
  induction n using Nat.strongRecOn with
  | ind n ih =>
    by_cases hn : n < base
    · rw [Nat.toDigits_of_lt_base hn, hlast 0 n hn, Nat.zero_mul, Nat.zero_add]
    · have hquotient := ih (n / base) (Nat.div_lt_self (by omega) hbase)
      rw [Nat.toDigits_of_base_le hbase (by omega), numberFrom_append, hquotient, Option.bind_some,
        hlast _ _ (Nat.mod_lt n (by omega)), Nat.div_add_mod']

/-- The digits of a number spell it. -/
theorem number?_toDigits (hbase : 1 < base) (hle : base ≤ 16) (n : Nat) :
    number? base (Nat.toDigits base n) = some n := by
  refine number?_eq_some_iff.mpr ⟨fun hnil => ?_, numberFrom_toDigits hbase hle n⟩
  rw [Nat.toDigits_eq_if hbase] at hnil
  split at hnil <;> simp at hnil

/-- Zeros in front do not change the value. -/
theorem numberFrom_zeros_append (hbase : 0 < base) (zeros : Nat) (cs : List Char) :
    numberFrom base 0 (List.replicate zeros '0' ++ cs) = numberFrom base 0 cs := by
  have hzero : digitValue '0' = some 0 := by decide
  induction zeros with
  | zero => rfl
  | succ zeros ih => simp [List.replicate_succ, numberFrom, hzero, hbase, ih]

/-- Zeros before the digits of a number do not count. -/
theorem number?_zeros_append (hbase : 1 < base) (hle : base ≤ 16) (n zeros : Nat) :
    number? base (List.replicate zeros '0' ++ Nat.toDigits base n) = some n := by
  obtain ⟨hne, hdigits⟩ := number?_eq_some_iff.mp (number?_toDigits hbase hle n)
  refine number?_eq_some_iff.mpr ⟨List.append_ne_nil_of_right_ne_nil _ hne, ?_⟩
  rw [numberFrom_zeros_append (by omega), hdigits]

/-! ## The texts that spell a number -/

/-- Digits of all bases are between `0` and `z`. -/
theorem toNat_of_digitValue (h : digitValue c = some d) : 48 ≤ c.toNat ∧ c.toNat ≤ 122 := by
  unfold digitValue isDigit at h
  split at h
  · rename_i hdigit
    simp only [Bool.and_eq_true, decide_eq_true_eq] at hdigit
    exact ⟨hdigit.1, Nat.le_trans hdigit.2 (by decide)⟩
  split at h
  · rename_i hlower
    simp only [Bool.and_eq_true, decide_eq_true_eq] at hlower
    exact ⟨Nat.le_trans (by decide) hlower.1, hlower.2⟩
  split at h
  · rename_i hupper
    simp only [Bool.and_eq_true, decide_eq_true_eq] at hupper
    exact ⟨Nat.le_trans (by decide) hupper.1, Nat.le_trans hupper.2 (by decide)⟩
  · cases h

/-- A digit is written as its value is, with a letter of either case. -/
theorem toLower_of_digitValue (h : digitValue c = some d) (hd : d < 16) :
    c.toLower = Nat.digitChar d := by
  have hascii : ∀ code < 123, ∀ d < 16, digitValue (Char.ofNat code) = some d →
      (Char.ofNat code).toLower = Nat.digitChar d := by decide +kernel
  have hcode := hascii c.toNat (Nat.lt_succ_of_le (toNat_of_digitValue h).2) d hd
  rw [Char.ofNat_toNat] at hcode
  exact hcode h

/-- Digits below ten are decimal digits. -/
theorem isDigit_of_digitValue (h : digitValue c = some d) (hd : d < 10) : isDigit c = true := by
  have hascii : ∀ code < 123, ∀ d < 10, digitValue (Char.ofNat code) = some d →
      isDigit (Char.ofNat code) = true := by decide +kernel
  have hcode := hascii c.toNat (Nat.lt_succ_of_le (toNat_of_digitValue h).2) d hd
  rw [Char.ofNat_toNat] at hcode
  exact hcode h

/-- Only capital letters change in lower case. -/
theorem toLower_of_le (h : c ≤ 'Z' → c < 'A') : c.toLower = c := by
  unfold Char.toLower
  refine dif_neg fun hupper => ?_
  exact Nat.not_lt_of_le hupper.1 (h hupper.2)

/-- Decimal digits do not change in lower case. -/
theorem toLower_of_isDigit (h : isDigit c = true) : c.toLower = c := by
  refine toLower_of_le fun _ => ?_
  simp only [isDigit, Bool.and_eq_true, decide_eq_true_eq] at h
  exact Nat.lt_of_le_of_lt h.2 (by decide)

/-- A letter is the same digit in either case. -/
theorem digitValue_toLower (c : Char) : digitValue c.toLower = digitValue c := by
  have hascii : ∀ code < 91,
      digitValue (Char.ofNat code).toLower = digitValue (Char.ofNat code) := by decide +kernel
  by_cases hcode : c.toNat < 91
  · have hvalue := hascii c.toNat hcode
    rwa [Char.ofNat_toNat] at hvalue
  · rw [toLower_of_le fun hupper => absurd (Nat.lt_succ_of_le hupper) hcode]

/-- Digits spell the same number in either case. -/
theorem numberFrom_map_toLower (base v : Nat) (cs : List Char) :
    numberFrom base v (cs.map Char.toLower) = numberFrom base v cs := by
  induction cs generalizing v with
  | nil => rfl
  | cons c cs ih => simp only [List.map_cons, numberFrom, digitValue_toLower, ih]

/-- Behind a digit other than zero, a text consists of the digits of the number that it spells. -/
theorem toDigits_of_numberFrom (hbase : 1 < base) (hle : base ≤ 16) (hv : 0 < v)
    (h : numberFrom base v cs = some n) :
    Nat.toDigits base n = Nat.toDigits base v ++ cs.map Char.toLower := by
  induction cs generalizing v with
  | nil =>
    obtain rfl := Option.some.inj h
    rw [List.map_nil, List.append_nil]
  | cons c cs ih =>
    obtain ⟨d, hd, hlt, h⟩ := numberFrom_cons_eq_some_iff.mp h
    have hstep : Nat.toDigits base (v * base + d) = Nat.toDigits base v ++ [c.toLower] := by
      rw [toLower_of_digitValue hd (by omega), ← Nat.toDigits_of_lt_base hlt,
        Nat.toDigits_append_toDigits hbase hv hlt, Nat.mul_comm]
    have hpositive : 0 < v * base + d := Nat.add_pos_left (Nat.mul_pos hv (by omega)) d
    rw [ih hpositive h, hstep, List.append_assoc, List.singleton_append, List.map_cons]

/-- A text that spells a number consists of its digits, with zeros before them, and with letters
of either case. -/
theorem exists_digits_of_number? (hbase : 1 < base) (hle : base ≤ 16)
    (h : number? base cs = some n) :
    ∃ zeros digits, cs = List.replicate zeros '0' ++ digits ∧
      digits.map Char.toLower = Nat.toDigits base n := by
  induction cs with
  | nil => cases h
  | cons c cs ih =>
    obtain ⟨d, hd, hlt, hrest⟩ := numberFrom_cons_eq_some_iff.mp (number?_eq_some_iff.mp h).2
    have hlower := toLower_of_digitValue hd (by omega)
    rw [Nat.zero_mul, Nat.zero_add] at hrest
    rcases Nat.eq_zero_or_pos d with rfl | hpositive
    · rw [toLower_of_isDigit (isDigit_of_digitValue hd (by decide))] at hlower
      subst hlower
      cases cs with
      | nil =>
        obtain rfl := Option.some.inj hrest
        exact ⟨0, ['0'], rfl, (Nat.toDigits_zero base).symm⟩
      | cons e cs =>
        obtain ⟨zeros, digits, hcs, hdigits⟩ :=
          ih (number?_eq_some_iff.mpr ⟨List.cons_ne_nil e cs, hrest⟩)
        exact ⟨zeros + 1, digits, by rw [hcs]; rfl, hdigits⟩
    · refine ⟨0, c :: cs, rfl, ?_⟩
      rw [toDigits_of_numberFrom hbase hle hpositive hrest, Nat.toDigits_of_lt_base hlt,
        List.map_cons, hlower]
      rfl

/-- The case of letters does not count. -/
theorem number?_map_toLower (base : Nat) (cs : List Char) :
    number? base (cs.map Char.toLower) = number? base cs := by
  rw [number?, number?, List.isEmpty_map, numberFrom_map_toLower]

/-- In a base without letters, a number is spelled by its digits and zeros before them alone. -/
theorem number?_eq_some_iff_toDigits (hbase : 1 < base) (hle : base ≤ 10) :
    number? base cs = some n ↔ ∃ zeros, cs = List.replicate zeros '0' ++ Nat.toDigits base n := by
  constructor
  · intro h
    obtain ⟨zeros, digits, rfl, hdigits⟩ := exists_digits_of_number? hbase (by omega) h
    have hsame : digits.map Char.toLower = digits := by
      refine (List.map_congr_left fun c hc => ?_).trans (List.map_id digits)
      obtain ⟨d, hd, hlt⟩ := exists_digit_of_mem_number? h (List.mem_append_right _ hc)
      exact toLower_of_isDigit (isDigit_of_digitValue hd (by omega))
    exact ⟨zeros, by rw [← hdigits, hsame]⟩
  · rintro ⟨zeros, rfl⟩
    exact number?_zeros_append hbase (by omega) n zeros

/-- The digits of a number start with a zero only if there is no other digit. -/
theorem toDigits_ne_zero_cons (n : Nat) (c : Char) (cs : List Char) :
    Nat.toDigits 10 n ≠ '0' :: c :: cs := by
  intro h
  have hzero : digitValue '0' = some 0 := by decide
  have hread := numberFrom_toDigits (by decide : 1 < 10) (by decide) n
  rw [h, numberFrom_cons_eq_some_iff] at hread
  obtain ⟨d, hd, -, hrest⟩ := hread
  obtain rfl := Option.some.inj (hzero.symm.trans hd)
  -- what is behind the zero spells the number, so it has all its digits again
  obtain ⟨zeros, hcs⟩ := (number?_eq_some_iff_toDigits (by decide) (by decide)).mp
    (number?_eq_some_iff.mpr ⟨List.cons_ne_nil c cs, hrest⟩)
  have hlength := congrArg List.length hcs
  rw [h, List.length_append, List.length_cons, List.length_cons, List.length_cons] at hlength
  omega

/-- The digits of a number that is not zero do not start with a zero. -/
theorem head?_toDigits_ne_zero (hn : 0 < n) : (Nat.toDigits 10 n).head? ≠ some '0' := by
  intro hhead
  obtain ⟨cs, hcs⟩ := List.head?_eq_some_iff.mp hhead
  cases cs with
  | nil =>
    have hread := numberFrom_toDigits (by decide : 1 < 10) (by decide) n
    rw [hcs] at hread
    exact Nat.ne_of_lt hn (Option.some.inj hread)
  | cons c cs => exact toDigits_ne_zero_cons n c cs hcs

end SmallC.Text
