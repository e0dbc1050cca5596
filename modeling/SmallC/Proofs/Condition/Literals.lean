import SmallC.Proofs.Condition.MacroNumbers
import SmallC.Proofs.Directive.Tiling

/-!
# Integer literals in conditions

A number in a condition is an integer literal of C: it is written in base ten, in base sixteen
after `0x`, or in base eight after a zero, and letters of a suffix may follow. Nothing else is
read as a number, and a literal has the value that it is written for as long as this value takes
up no more than 64 bits.
-/

namespace SmallC

namespace Text

variable {d : Nat} {c : Char}

/-- Every digit of every base is a letter or a decimal digit. -/
theorem isAlphanumeric_of_digitValue (h : digitValue c = some d) : isAlphanumeric c = true := by
  unfold digitValue at h
  unfold isAlphanumeric isLetter
  split at h
  · rename_i hdigit
    simp [hdigit]
  split at h
  · rename_i hlower
    simp [hlower]
  split at h
  · rename_i hupper
    simp [hupper]
  · cases h

end Text

namespace Condition

variable {n m : Nat} {c : Char} {cs suffix text : List Char}

/-! ## Literals without a suffix -/

/-- The ways in which a whole number is written in the bases of C: without a zero before it in
base ten, behind an `x` with letters of either case in base sixteen, and behind a zero in base
eight. -/
inductive Writes (n : Nat) : List Char → Prop
  | decimal : Writes n (Nat.toDigits 10 n)
  | hexadecimal (x : Char) (hx : x = 'x' ∨ x = 'X') (zeros : Nat) (digits : List Char)
      (hdigits : digits.map Char.toLower = Nat.toDigits 16 n) :
      Writes n ('0' :: x :: (List.replicate zeros '0' ++ digits))
  | octal (zeros : Nat) : Writes n ('0' :: (List.replicate zeros '0' ++ Nat.toDigits 8 n))

/-- A number as it is written in C is read as that number. -/
theorem magnitude?_of_writes (h : Writes n cs) : magnitude? cs = some n := by
  cases h with
  | decimal =>
    have hread := Text.number?_toDigits (by decide : 1 < 10) (by decide) n
    have hzero := Text.toDigits_ne_zero_cons n
    unfold magnitude?
    split
    · rename_i heq
      exact absurd heq (hzero _ _)
    · rename_i heq
      exact absurd heq (hzero _ _)
    · rename_i heq
      exact absurd heq (hzero _ _)
    · exact hread
  | hexadecimal x hx zeros digits hdigits =>
    have hread : Text.number? 16 (List.replicate zeros '0' ++ digits) = some n := by
      rw [← Text.number?_map_toLower, List.map_append, List.map_replicate, hdigits]
      exact Text.number?_zeros_append (by decide) (by decide) n zeros
    rcases hx with rfl | rfl
    · exact hread
    · exact hread
  | octal zeros =>
    have hread := Text.number?_zeros_append (by decide : 1 < 8) (by decide) n zeros
    have hmark : ∀ d < 8, Text.digitValue 'x' ≠ some d ∧ Text.digitValue 'X' ≠ some d := by decide
    generalize List.replicate zeros '0' ++ Nat.toDigits 8 n = digits at hread
    cases digits with
    | nil => cases hread
    | cons c cs =>
      obtain ⟨d, hd, hlt⟩ := Text.exists_digit_of_mem_number? hread List.mem_cons_self
      unfold magnitude?
      split
      · rename_i heq
        cases heq
        exact absurd hd (hmark d hlt).1
      · rename_i heq
        cases heq
        exact absurd hd (hmark d hlt).2
      · rename_i heq
        cases heq
        exact hread
      · rename_i hmore
        exact absurd rfl (hmore c cs)

/-- Whatever is read as a number is written in one of the three ways that C has. -/
theorem writes_of_magnitude? (h : magnitude? cs = some n) : Writes n cs := by
  unfold magnitude? at h
  split at h
  · obtain ⟨zeros, digits, rfl, hdigits⟩ :=
      Text.exists_digits_of_number? (by decide) (by decide) h
    exact .hexadecimal 'x' (.inl rfl) zeros digits hdigits
  · obtain ⟨zeros, digits, rfl, hdigits⟩ :=
      Text.exists_digits_of_number? (by decide) (by decide) h
    exact .hexadecimal 'X' (.inr rfl) zeros digits hdigits
  · obtain ⟨zeros, hcs⟩ := (Text.number?_eq_some_iff_toDigits (by decide) (by decide)).mp h
    rw [hcs]
    exact .octal zeros
  · rename_i hmore
    obtain ⟨zeros, rfl⟩ := (Text.number?_eq_some_iff_toDigits (by decide) (by decide)).mp h
    cases zeros with
    | zero => exact .decimal
    | succ zeros =>
      -- a zero in front of other digits is read in base eight
      cases hcs : List.replicate zeros '0' ++ Nat.toDigits 10 n with
      | nil =>
        have hne := List.length_pos_iff.mp (Nat.length_toDigits_pos (b := 10) (n := n))
        exact absurd hcs (List.append_ne_nil_of_right_ne_nil _ hne)
      | cons c cs => exact absurd (congrArg ('0' :: ·) hcs) (hmore c cs)

/-- The digits of literals and what they are worth are those of C, in either direction. -/
theorem magnitude?_eq_some_iff : magnitude? cs = some n ↔ Writes n cs :=
  ⟨writes_of_magnitude?, magnitude?_of_writes⟩

/-! ## Literals -/

/-- A number as it is written in C, with letters of a suffix behind it. -/
def IsLiteral (n : Nat) (text : List Char) : Prop :=
  ∃ cs suffix, text = cs ++ suffix ∧ Writes n cs ∧ ∀ c ∈ suffix, isSuffix c = true

/-- What is before a suffix has no letter of one at its end. -/
theorem withoutSuffix_append (hcs : ∀ c ∈ cs, isSuffix c = false)
    (hsuffix : ∀ c ∈ suffix, isSuffix c = true) : withoutSuffix (cs ++ suffix) = cs := by
  have hends : cs.reverse.dropWhile isSuffix = cs.reverse := by
    refine List.dropWhile_eq_self_iff.mpr fun hlength => ?_
    have hlast := hcs _ (List.mem_reverse.mp (List.getElem_mem hlength))
    rw [hlast]
    exact Bool.false_ne_true
  rw [withoutSuffix, List.reverse_append, List.dropWhile_append_of_pos (by simpa using hsuffix),
    hends, List.reverse_reverse]

/-- Literals are the texts that can be read once their suffix is off. -/
theorem isLiteral_iff : IsLiteral n text ↔ magnitude? (withoutSuffix text) = some n := by
  constructor
  · rintro ⟨cs, suffix, rfl, hcs, hsuffix⟩
    have hread := magnitude?_eq_some_iff.mpr hcs
    rwa [withoutSuffix_append (fun c hc => not_isSuffix_of_mem_magnitude? hread hc) hsuffix]
  · intro h
    obtain ⟨suffix, htext, hsuffix⟩ := exists_suffix text
    exact ⟨withoutSuffix text, suffix, htext, magnitude?_eq_some_iff.mp h, hsuffix⟩

/-- A number starts with a decimal digit in each base, if only with the zero that names the base. -/
theorem exists_digit_cons_of_writes (h : Writes n cs) :
    ∃ c ds, cs = c :: ds ∧ Text.isDigit c = true := by
  cases h with
  | decimal =>
    have hread := Text.number?_toDigits (by decide : 1 < 10) (by decide) n
    cases hcs : Nat.toDigits 10 n with
    | nil => rw [hcs] at hread; cases hread
    | cons c ds =>
      rw [hcs] at hread
      obtain ⟨d, hd, hlt⟩ := Text.exists_digit_of_mem_number? hread List.mem_cons_self
      exact ⟨c, ds, rfl, Text.isDigit_of_digitValue hd hlt⟩
  | hexadecimal => exact ⟨'0', _, rfl, rfl⟩
  | octal => exact ⟨'0', _, rfl, rfl⟩

/-- A literal is a run of letters and digits that starts with a digit. -/
theorem IsLiteral.isRun (h : IsLiteral n text) : Text.isRun text = true := by
  obtain ⟨cs, suffix, rfl, hcs, hsuffix⟩ := h
  obtain ⟨c, ds, rfl, hc⟩ := exists_digit_cons_of_writes hcs
  rw [List.cons_append, Text.isRun, hc, Bool.true_and, List.all_eq_true]
  intro e he
  rcases List.mem_append.mp he with he | he
  · obtain ⟨d, hd⟩ :=
      exists_digit_of_mem_magnitude? (magnitude?_eq_some_iff.mpr hcs) (List.mem_cons_of_mem c he)
    exact Text.isAlphanumeric_of_digitValue hd
  · obtain ⟨d, hd, -⟩ := digitValue_of_isSuffix (hsuffix e he)
    exact Text.isAlphanumeric_of_digitValue hd

/-- A literal is one token of a directive line, and nothing else is in the line. -/
theorem IsLiteral.all_eq {text : String} (h : IsLiteral n text.toList) :
    DirectiveToken.all text.toList = [⟨0, .number text, []⟩] := by
  have hspells : DirectiveToken.Spells (.number text) text.toList [] :=
    DirectiveToken.spells_number h.isRun (by simp)
  have hall := DirectiveToken.allFrom_of_spells 0 hspells
  rw [List.append_nil, DirectiveToken.allFrom] at hall
  exact hall

/-- A text that is no literal is the fault of the condition that consists of it. -/
theorem evaluate_unreadable (macros : MacroTable) {text : String}
    (h : number? text.toList = none) :
    evaluate macros [.number text] = .error (.unreadableNumber text) := by
  simp [evaluate, read, expression, operation, operand, integers, h]

/-- A literal has the value that it is written for, unless there is no room for it. -/
theorem number?_of_isLiteral (h : IsLiteral n text) :
    number? text = if n < UInt64.size then some (UInt64.ofNat n).toInt64 else none := by
  rw [number?, ← withoutSuffix, isLiteral_iff.mp h]

/-- Only literals have values. -/
theorem exists_isLiteral_of_number? {v : Int64} (h : number? text = some v) :
    ∃ n < UInt64.size, IsLiteral n text := by
  obtain ⟨n, hn, hrange, -⟩ := number?_eq_some_iff.mp h
  exact ⟨n, hrange, isLiteral_iff.mpr hn⟩

/-- The numbers in conditions are the integer literals of C, with any suffix. Each of them is one
token. It is worth its number as a two's complement integer, if this takes up no more than 64
bits. A literal that takes up more is an error, and so is everything that is no literal. -/
theorem evaluate_literal (macros : MacroTable) (text : String) :
    (∀ n, IsLiteral n text.toList →
      DirectiveToken.all text.toList = [⟨0, .number text, []⟩] ∧
      (n < UInt64.size → evaluate macros [.number text] = .ok (UInt64.ofNat n).toInt64) ∧
      (UInt64.size ≤ n → evaluate macros [.number text] = .error (.unreadableNumber text))) ∧
    (∀ v, evaluate macros [.number text] = .ok v →
      ∃ n < UInt64.size, IsLiteral n text.toList) ∧
    ((∀ n, ¬ IsLiteral n text.toList) →
      evaluate macros [.number text] = .error (.unreadableNumber text)) := by
  refine ⟨fun n h => ?_, fun v h => ?_, fun h => ?_⟩
  · have hread := number?_of_isLiteral h
    refine ⟨h.all_eq, fun hn => ?_, fun hn => ?_⟩
    · exact evaluate_number (by rw [hread, if_pos hn])
    · exact evaluate_unreadable macros (by rw [hread, if_neg (Nat.not_lt_of_le hn)])
  · cases hread : number? text.toList with
    | none =>
      rw [evaluate_unreadable macros hread] at h
      cases h
    | some v' => exact exists_isLiteral_of_number? hread
  · cases hread : number? text.toList with
    | none => exact evaluate_unreadable macros hread
    | some v =>
      obtain ⟨n, -, hn⟩ := exists_isLiteral_of_number? hread
      exact absurd hn (h n)

/-- The largest literal, in base sixteen, is minus one. The next one, in base ten, is too large,
and behind `0x` there are digits before a suffix. -/
theorem evaluate_largest_literal :
    evaluate .empty [.number "0X00ffffFFFFffffFFFFuL"] = .ok (-1) ∧
      evaluate .empty [.number "18446744073709551616"] =
        .error (.unreadableNumber "18446744073709551616") ∧
      evaluate .empty [.number "0xl"] = .error (.unreadableNumber "0xl") := by
  have hlargest : IsLiteral 18446744073709551615 "0X00ffffFFFFffffFFFFuL".toList :=
    isLiteral_iff.mpr (by decide +kernel)
  have hnext : IsLiteral 18446744073709551616 "18446744073709551616".toList :=
    isLiteral_iff.mpr (by decide +kernel)
  have hmark (n : Nat) : ¬ IsLiteral n "0xl".toList := by
    have hnone : magnitude? (withoutSuffix "0xl".toList) = none := by decide +kernel
    rw [isLiteral_iff, hnone]
    exact Option.some_ne_none n ∘ Eq.symm
  obtain ⟨-, hvalue, -⟩ := (evaluate_literal .empty _).1 _ hlargest
  obtain ⟨-, -, htoo⟩ := (evaluate_literal .empty _).1 _ hnext
  exact ⟨hvalue (by decide), htoo (by decide), (evaluate_literal .empty _).2.2 hmark⟩

end Condition

end SmallC
