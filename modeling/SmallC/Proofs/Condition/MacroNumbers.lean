import Mathlib.Data.List.TakeWhile
import SmallC.Condition
import SmallC.Proofs.Text.Digits
import SmallC.Proofs.Text.Trimming

/-!
# Macros that spell numbers

In a condition a name has the value that the body of its macro spells. A body is read as a
whole number with a sign, in base ten or after `0x` in base sixteen, and is worth nothing
beyond the positive integers of 64 bits. A number in the condition itself may be octal too,
may have a suffix and may take up all 64 bits. Here it is shown which numbers are read alike
in both places.
-/

namespace SmallC

namespace Text

variable {base n v w : Nat} {c : Char} {cs : List Char}

/-- A number without a sign is one with an optional sign. -/
theorem signed?_of_number? (h : number? base cs = some n) : signed? base cs = some (n : Int) := by
  have hsign : digitValue '-' = none ∧ digitValue '+' = none := by decide
  unfold signed?
  split
  · obtain ⟨d, hd, -⟩ := exists_digit_of_mem_number? h List.mem_cons_self
    rw [hsign.1] at hd
    cases hd
  · obtain ⟨d, hd, -⟩ := exists_digit_of_mem_number? h List.mem_cons_self
    rw [hsign.2] at hd
    cases hd
  · rw [h]
    rfl

/-- Octal digits spell a larger number in base ten, unless there is only one of them besides
zeros. -/
theorem exists_numberFrom_ten (hvw : v < 8 ∧ w = v ∨ 8 ≤ v ∧ v < w)
    (h : numberFrom 8 v cs = some n) :
    ∃ m, numberFrom 10 w cs = some m ∧ (n < 8 ∧ m = n ∨ 8 ≤ n ∧ n < m) := by
  induction cs generalizing v w with
  | nil =>
    obtain rfl := Option.some.inj h
    exact ⟨w, rfl, hvw⟩
  | cons c cs ih =>
    obtain ⟨d, hd, hlt, h⟩ := numberFrom_cons_eq_some_iff.mp h
    obtain ⟨m, hm, hnm⟩ := ih (v := v * 8 + d) (w := w * 10 + d) (by omega) h
    exact ⟨m, numberFrom_cons_eq_some_iff.mpr ⟨d, hd, by omega, hm⟩, hnm⟩

end Text

namespace Condition

open Text

variable {n : Nat} {c : Char} {cs : List Char}

/-! ## Numbers in conditions -/

/-- A number without its suffix. -/
def withoutSuffix (text : List Char) : List Char := (text.reverse.dropWhile isSuffix).reverse

/-- A number in base eight: a zero and more digits after it. -/
def IsOctal : List Char → Prop
  | '0' :: d :: _ => d ≠ 'x' ∧ d ≠ 'X'
  | _ => False

/-- What a number of a condition is worth: its magnitude in 64 bits, read as two's complement. -/
theorem number?_eq_some_iff {text : List Char} {v : Int64} :
    number? text = some v ↔
      ∃ n, magnitude? (withoutSuffix text) = some n ∧ n < UInt64.size ∧ Int64.ofNat n = v := by
  rw [number?, withoutSuffix]
  cases magnitude? (text.reverse.dropWhile isSuffix).reverse with
  | none => simp
  | some n =>
    by_cases hn : n < UInt64.size
    · simp [hn]
    · simp [hn]

/-- What is taken off a number are letters of a suffix only. -/
theorem exists_suffix (text : List Char) :
    ∃ suffix, text = withoutSuffix text ++ suffix ∧ ∀ c ∈ suffix, isSuffix c = true := by
  refine ⟨(text.reverse.takeWhile isSuffix).reverse, ?_, ?_⟩
  · rw [withoutSuffix, ← List.reverse_append, List.takeWhile_append_dropWhile, List.reverse_reverse]
  · intro c hc
    exact List.mem_takeWhile_imp (List.mem_reverse.mp hc)

/-- The letters of a suffix are no digits. -/
theorem digitValue_of_isSuffix (h : isSuffix c = true) : ∃ d, digitValue c = some d ∧ 16 ≤ d := by
  simp only [isSuffix, Bool.or_eq_true, beq_iff_eq] at h
  rcases h with ((rfl | rfl) | rfl) | rfl
  · exact ⟨30, by decide, by decide⟩
  · exact ⟨30, by decide, by decide⟩
  · exact ⟨21, by decide, by decide⟩
  · exact ⟨21, by decide, by decide⟩

/-- No digit up to hexadecimal ones is a letter of a suffix, so that taking the suffix off takes no
digits. -/
theorem not_isSuffix_of_digitValue {d : Nat} (h : digitValue c = some d) (hd : d < 16) :
    isSuffix c = false := by
  refine Bool.eq_false_iff.mpr fun hsuffix => ?_
  obtain ⟨d', hd', hle⟩ := digitValue_of_isSuffix hsuffix
  obtain rfl := Option.some.inj (h.symm.trans hd')
  omega

/-- In a number without its suffix there are digits, and the mark of base sixteen. -/
theorem digit_or_mark_of_mem_magnitude? (h : magnitude? cs = some n) (hc : c ∈ cs) :
    (∃ d, digitValue c = some d ∧ d < 16) ∨ c = 'x' ∨ c = 'X' := by
  have hzero : ∃ d, digitValue '0' = some d ∧ d < 16 := ⟨0, by decide, by decide⟩
  have hdigits {base : Nat} {ds : List Char} (hbase : base ≤ 16)
      (hds : Text.number? base ds = some n) (hc : c ∈ ds) :
      ∃ d, digitValue c = some d ∧ d < 16 := by
    obtain ⟨d, hd, hlt⟩ := exists_digit_of_mem_number? hds hc
    exact ⟨d, hd, Nat.lt_of_lt_of_le hlt hbase⟩
  unfold magnitude? at h
  split at h
  · rcases List.mem_cons.mp hc with rfl | hc
    · exact .inl hzero
    rcases List.mem_cons.mp hc with rfl | hc
    · exact .inr (.inl rfl)
    · exact .inl (hdigits (by decide) h hc)
  · rcases List.mem_cons.mp hc with rfl | hc
    · exact .inl hzero
    rcases List.mem_cons.mp hc with rfl | hc
    · exact .inr (.inr rfl)
    · exact .inl (hdigits (by decide) h hc)
  · rcases List.mem_cons.mp hc with rfl | hc
    · exact .inl hzero
    · exact .inl (hdigits (by decide) h hc)
  · exact .inl (hdigits (by decide) h hc)

/-- A number that can be read has digits only. -/
theorem exists_digit_of_mem_magnitude? (h : magnitude? cs = some n) (hc : c ∈ cs) :
    ∃ d, digitValue c = some d := by
  rcases digit_or_mark_of_mem_magnitude? h hc with ⟨d, hd, -⟩ | rfl | rfl
  · exact ⟨d, hd⟩
  · exact ⟨33, by decide⟩
  · exact ⟨33, by decide⟩

/-- No letter of a suffix is in a number without its suffix. -/
theorem not_isSuffix_of_mem_magnitude? (h : magnitude? cs = some n) (hc : c ∈ cs) :
    isSuffix c = false := by
  rcases digit_or_mark_of_mem_magnitude? h hc with ⟨d, hd, hlt⟩ | rfl | rfl
  · exact not_isSuffix_of_digitValue hd hlt
  · rfl
  · rfl

/-! ## Numbers in bodies -/

/-- No number with a sign has a letter of a suffix. -/
theorem not_isSuffix_of_mem_signed? {base : Nat} {i : Int} (hbase : base ≤ 16)
    (h : signed? base cs = some i) (hc : c ∈ cs) : isSuffix c = false := by
  have hdigits {ds : List Char} (hds : (Text.number? base ds).isSome) (hc : c ∈ ds) :
      isSuffix c = false := by
    obtain ⟨n, hn⟩ := Option.isSome_iff_exists.mp hds
    obtain ⟨d, hd, hlt⟩ := exists_digit_of_mem_number? hn hc
    exact not_isSuffix_of_digitValue hd (Nat.lt_of_lt_of_le hlt hbase)
  have hsigned : (signed? base cs).isSome := by rw [h]; rfl
  unfold signed? at hsigned
  split at hsigned
  · rcases List.mem_cons.mp hc with rfl | hc
    · rfl
    · exact hdigits (by simpa using hsigned) hc
  · rcases List.mem_cons.mp hc with rfl | hc
    · rfl
    · exact hdigits (by simpa using hsigned) hc
  · exact hdigits (by simpa using hsigned) hc

/-- A body with a suffix spells no number. -/
theorem integerOf_of_isSuffix (hcs : ∀ e ∈ cs, isSpace e = false) (hc : c ∈ cs)
    (hsuffix : isSuffix c = true) : Macro.integerOf cs = none := by
  have hnone {base : Nat} {ds : List Char} (hbase : base ≤ 16) (hc : c ∈ ds) :
      (signed? base ds).bind Macro.int64? = none := by
    cases hds : signed? base ds with
    | none => rfl
    | some i =>
      rw [not_isSuffix_of_mem_signed? hbase hds hc] at hsuffix
      cases hsuffix
  have hzero : c ≠ '0' := by rintro rfl; cases hsuffix
  have hlower : c ≠ 'x' := by rintro rfl; cases hsuffix
  have hupper : c ≠ 'X' := by rintro rfl; cases hsuffix
  unfold Macro.integerOf
  rw [trim_eq_self hcs]
  split
  · exact hnone (by decide) (by simpa [hzero, hlower] using hc)
  · exact hnone (by decide) (by simpa [hzero, hupper] using hc)
  · exact hnone (by decide) hc

/-- A body that is a number without a suffix spells this number, unless it is octal: then it is
read in base ten. -/
theorem exists_integerOf_eq (hcs : ∀ e ∈ cs, isSpace e = false) (h : magnitude? cs = some n) :
    ∃ m : Nat, Macro.integerOf cs = Macro.int64? m ∧
      (¬ IsOctal cs ∧ m = n ∨ IsOctal cs ∧ (n < 8 ∧ m = n ∨ 8 ≤ n ∧ n < m)) := by
  unfold Macro.integerOf
  rw [trim_eq_self hcs]
  unfold magnitude? at h
  split at h
  · exact ⟨n, by simp [signed?_of_number? h], .inl ⟨by simp [IsOctal], rfl⟩⟩
  · exact ⟨n, by simp [signed?_of_number? h], .inl ⟨by simp [IsOctal], rfl⟩⟩
  · rename_i d digits hlower hupper
    obtain ⟨m, hm, hnm⟩ := exists_numberFrom_ten (.inl ⟨by decide, rfl⟩)
      (Text.number?_eq_some_iff.mp h).2
    have hten : Text.number? 10 ('0' :: d :: digits) = some m := by
      have hzero : digitValue '0' = some 0 := by decide
      rw [Text.number?_eq_some_iff]
      exact ⟨by simp, by rw [numberFrom, hzero]; exact hm⟩
    refine ⟨m, ?_, .inr ⟨⟨hlower, hupper⟩, hnm⟩⟩
    split
    · rename_i heq
      cases heq
      exact absurd rfl hlower
    · rename_i heq
      cases heq
      exact absurd rfl hupper
    · rw [signed?_of_number? hten]
      rfl
  · rename_i hlower hupper hoctal
    refine ⟨n, ?_, .inl ⟨fun hmore => ?_, rfl⟩⟩
    · split
      · exact absurd rfl (hlower _)
      · exact absurd rfl (hupper _)
      · rw [signed?_of_number? h]
        rfl
    · unfold IsOctal at hmore
      split at hmore
      · exact hoctal _ _ rfl
      · exact hmore

/-! ## Agreement -/

/-- Reading 64 bits as two's complement takes their size off the upper half. -/
theorem toInt_ofNat {n : Nat} (hn : n < UInt64.size) :
    (Int64.ofNat n).toInt = if n ≤ Int64.maxValue.toInt then (n : Int) else n - UInt64.size := by
  have hmax : Int64.maxValue.toInt = 9223372036854775807 := rfl
  have hsize : UInt64.size = 18446744073709551616 := rfl
  have hsize' : Int64.size = 18446744073709551616 := rfl
  rw [Int64.toInt_ofNat', Int.bmod_def, hsize']
  split <;> split <;> omega

/-- A number that is a positive integer of 64 bits is read from a body if it is that number. -/
theorem getD_int64?_eq_iff {m n : Nat} (hn : n < UInt64.size) :
    (Macro.int64? m).getD 0 = Int64.ofNat n ↔
      m = n ∧ m ≤ Int64.maxValue.toInt ∨ n = 0 ∧ Int64.maxValue.toInt < m := by
  have hmax : Int64.maxValue.toInt = 9223372036854775807 := rfl
  have hmin : Int64.minValue.toInt = -9223372036854775808 := rfl
  have hsize : UInt64.size = 18446744073709551616 := rfl
  rw [← Int64.toInt_inj, toInt_ofNat hn, Macro.int64?]
  by_cases hm : m ≤ Int64.maxValue.toInt
  · rw [if_pos ⟨by omega, hm⟩, Option.getD_some, Int64.toInt_ofInt_of_le (by omega) (by omega)]
    split <;> omega
  · rw [if_neg fun h => hm h.2, Option.getD_none, Int64.toInt_zero]
    split <;> omega

/-- Only zero becomes zero. -/
theorem ofNat_eq_zero_iff {n : Nat} (hn : n < UInt64.size) : Int64.ofNat n = 0 ↔ n = 0 := by
  have hmax : Int64.maxValue.toInt = 9223372036854775807 := rfl
  have hsize : UInt64.size = 18446744073709551616 := rfl
  rw [← Int64.toInt_inj, toInt_ofNat hn, Int64.toInt_zero]
  split <;> omega

/-- A number stays positive unless it is in the upper half. -/
theorem ofNat_pos_iff {n : Nat} (hn : n < UInt64.size) :
    0 < Int64.ofNat n ↔ 0 < n ∧ n ≤ Int64.maxValue.toInt := by
  have hsize : UInt64.size = 18446744073709551616 := rfl
  rw [Int64.lt_iff_toInt_lt, toInt_ofNat hn, Int64.toInt_zero]
  split <;> omega

/-- Below the upper half a number is compared with eight as it is. -/
theorem ofNat_lt_eight_iff {n : Nat} (hn : n ≤ Int64.maxValue.toInt) :
    Int64.ofNat n < 8 ↔ n < 8 := by
  have hmax : Int64.maxValue.toInt = 9223372036854775807 := rfl
  have hrange : n < UInt64.size := by
    have hsize : UInt64.size = 18446744073709551616 := rfl
    omega
  rw [Int64.lt_iff_toInt_lt, toInt_ofNat hrange, if_pos hn, show (8 : Int64).toInt = 8 from rfl]
  omega

/-- There is no white space in a number. -/
theorem isSpace_of_mem_number {text : List Char} (h : magnitude? (withoutSuffix text) = some n)
    (hc : c ∈ text) : isSpace c = false := by
  obtain ⟨suffix, htext, hsuffix⟩ := exists_suffix text
  rw [htext] at hc
  rcases List.mem_append.mp hc with hc | hc
  · obtain ⟨d, hd⟩ := exists_digit_of_mem_magnitude? h hc
    exact isSpace_of_digitValue hd
  · obtain ⟨d, hd, -⟩ := digitValue_of_isSuffix (hsuffix c hc)
    exact isSpace_of_digitValue hd

/-- A number that is the text of a body has its own value there exactly if it is zero, or has no
suffix, is positive in 64 bits, and is below eight if it is octal. -/
theorem getD_integerOf_eq_iff {text : List Char} {v : Int64} (h : number? text = some v) :
    (Macro.integerOf text).getD 0 = v ↔
      v = 0 ∨ withoutSuffix text = text ∧ 0 < v ∧ (IsOctal text → v < 8) := by
  obtain ⟨n, hn, hrange, rfl⟩ := number?_eq_some_iff.mp h
  have hspace (c : Char) (hc : c ∈ text) : isSpace c = false := isSpace_of_mem_number hn hc
  obtain ⟨suffix, htext, hsuffix⟩ := exists_suffix text
  rw [ofNat_eq_zero_iff hrange, ofNat_pos_iff hrange]
  cases suffix with
  | nil =>
    rw [List.append_nil] at htext
    rw [← htext] at hn
    obtain ⟨m, hm, hnm⟩ := exists_integerOf_eq hspace hn
    rw [hm, getD_int64?_eq_iff hrange, ← htext]
    by_cases hoctal : IsOctal text
    · have hnm : n < 8 ∧ m = n ∨ 8 ≤ n ∧ n < m := by simpa [hoctal] using hnm
      by_cases hle : n ≤ Int64.maxValue.toInt
      · simp only [ofNat_lt_eight_iff hle, hoctal, true_imp_iff, true_and]
        omega
      · simp only [hle, and_false, false_and, or_false]
        omega
    · obtain rfl : m = n := by simpa [hoctal] using hnm
      simp only [hoctal, false_imp_iff, and_true, true_and]
      omega
  | cons c suffix =>
    have hc : c ∈ text := by
      rw [htext]
      simp
    have hne : withoutSuffix text ≠ text := by
      intro heq
      rw [heq] at htext
      simp at htext
    rw [integerOf_of_isSuffix hspace hc (hsuffix c List.mem_cons_self), Option.getD_none, eq_comm,
      ofNat_eq_zero_iff hrange]
    simp [hne]

/-! ## Names and numbers -/

/-- A condition that is one number is worth that number. -/
theorem evaluate_number {macros : MacroTable} {text : String} {v : Int64}
    (h : number? text.toList = some v) : evaluate macros [.number text] = .ok v := by
  simp [evaluate, read, expression, operation, operations, operand, integers, h, after?,
    binaryOperator?]

/-- A condition that is one name is worth what its macro spells, or zero. -/
theorem evaluate_identifier (macros : MacroTable) {name : String} (h : name ≠ "defined") :
    evaluate macros [.identifier name] = .ok (((macros.get? name).bind Macro.integer?).getD 0) := by
  simp [evaluate, read, expression, operation, operations, operand, integers, h, after?,
    binaryOperator?]

/-- A macro whose body is a number has the value of the number exactly if the number is zero, or
has no suffix, is positive in 64 bits, and is below eight if it is octal. -/
theorem evaluate_macro_eq_iff {macros : MacroTable} {name text : String} {location : Location}
    {builtin : Bool} {v : Int64} (hname : name ≠ "defined")
    (hget : macros.get? name = some ⟨name, none, text, location, builtin⟩)
    (hnumber : number? text.toList = some v) :
    evaluate macros [.identifier name] = evaluate macros [.number text] ↔
      v = 0 ∨ withoutSuffix text.toList = text.toList ∧ 0 < v ∧ (IsOctal text.toList → v < 8) := by
  rw [evaluate_identifier macros hname, evaluate_number hnumber, Except.ok.injEq, hget]
  exact getD_integerOf_eq_iff hnumber

/-- The largest number that a body is worth. -/
theorem evaluate_macro_largest :
    let macros := MacroTable.empty.insert ⟨"N", none, "0x7fffffffffffffff", default, false⟩
    "N" ≠ "defined" ∧
      macros.get? "N" = some ⟨"N", none, "0x7fffffffffffffff", default, false⟩ ∧
      number? "0x7fffffffffffffff".toList = some 9223372036854775807 ∧
      evaluate macros [.identifier "N"] = evaluate macros [.number "0x7fffffffffffffff"] := by
  intro macros
  have hget := MacroTable.get?_insert_self .empty ⟨"N", none, "0x7fffffffffffffff", default, false⟩
  have hnumber : number? "0x7fffffffffffffff".toList = some 9223372036854775807 := by decide +kernel
  refine ⟨by decide, hget, hnumber, (evaluate_macro_eq_iff (by decide) hget hnumber).mpr ?_⟩
  exact .inr ⟨by decide, by decide, fun h => absurd rfl h.1⟩

/-- The octal number ten is eight, and as the body of a macro it is ten. -/
theorem not_evaluate_macro_eq :
    ¬ ∀ (macros : MacroTable) (name text : String) (location : Location) (builtin : Bool),
      name ≠ "defined" → macros.get? name = some ⟨name, none, text, location, builtin⟩ →
      (number? text.toList).isSome →
      evaluate macros [.identifier name] = evaluate macros [.number text] := by
  intro hall
  have hget := MacroTable.get?_insert_self .empty ⟨"N", none, "010", default, false⟩
  have heq := hall _ "N" "010" default false (by decide) hget (by decide)
  have hnumber : number? "010".toList = some 8 := by decide
  rw [evaluate_identifier _ (by decide), evaluate_number hnumber, hget] at heq
  exact absurd heq (by decide)

end Condition

end SmallC
