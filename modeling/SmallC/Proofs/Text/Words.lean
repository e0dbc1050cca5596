import SmallC.Text.Digits

/-!
# Words

An identifier starts with a letter or an underscore and goes on with letters, digits and
underscores. A number of a directive line is a run of letters and digits that starts with a
digit.
-/

namespace SmallC.Text

variable {c : Char} {cs : List Char}

/-- The decimal digits are ten characters in a row. -/
theorem toNat_of_isDigit (hc : isDigit c) : 48 ≤ c.toNat ∧ c.toNat ≤ 57 := by
  simpa [isDigit, Char.le_def, UInt32.le_iff_toNat_le] using hc

/-- What starts an identifier comes behind all digits. -/
theorem toNat_of_startsIdentifier (hc : startsIdentifier c) : 65 ≤ c.toNat := by
  simp only [startsIdentifier, isLetter, Bool.or_eq_true, Bool.and_eq_true, decide_eq_true_eq,
    beq_iff_eq, Char.le_def, UInt32.le_iff_toNat_le] at hc
  rcases hc with (⟨hlow, -⟩ | ⟨hlow, -⟩) | rfl
  · exact Nat.le_trans (show 65 ≤ 97 by decide) hlow
  · exact hlow
  · decide

/-- No digit starts an identifier, so that numbers and names are told apart by their first
character. -/
theorem not_startsIdentifier_of_isDigit (hc : isDigit c) : startsIdentifier c = false := by
  refine Bool.eq_false_iff.mpr fun hstarts => ?_
  have hdigit := toNat_of_isDigit hc
  have hword := toNat_of_startsIdentifier hstarts
  omega

/-- The text is an identifier. -/
def isIdentifier : List Char → Bool
  | [] => false
  | c :: cs => startsIdentifier c && cs.all continuesIdentifier

/-- What starts an identifier may also go on with it. -/
theorem continuesIdentifier_of_starts (hc : startsIdentifier c) : continuesIdentifier c := by
  simp only [startsIdentifier, continuesIdentifier, Bool.or_eq_true] at hc ⊢
  exact hc.imp_left .inl

/-- Every character of an identifier goes on with it. -/
theorem continuesIdentifier_of_mem (hcs : isIdentifier cs) (hc : c ∈ cs) :
    continuesIdentifier c := by
  cases cs with
  | nil => cases hc
  | cons d cs =>
    obtain ⟨hd, hcs⟩ := Bool.and_eq_true_iff.mp hcs
    rcases List.mem_cons.mp hc with rfl | hc
    · exact continuesIdentifier_of_starts hd
    · exact List.all_eq_true.mp hcs c hc

/-- A letter or a digit. -/
def isAlphanumeric (c : Char) : Bool := isLetter c || isDigit c

/-- The text is a run of letters and digits, a digit first. -/
def isRun : List Char → Bool
  | [] => false
  | c :: cs => isDigit c && cs.all isAlphanumeric

/-- Every character of a run is a letter or a digit. -/
theorem isAlphanumeric_of_mem (hcs : isRun cs) (hc : c ∈ cs) : isAlphanumeric c := by
  cases cs with
  | nil => cases hc
  | cons d cs =>
    obtain ⟨hd, hcs⟩ := Bool.and_eq_true_iff.mp hcs
    rcases List.mem_cons.mp hc with rfl | hc
    · exact Bool.or_eq_true_iff.mpr (.inr hd)
    · exact List.all_eq_true.mp hcs c hc

/-- Letters and digits go on with an identifier, so that a run cannot be cut off inside of one. -/
theorem continuesIdentifier_of_isAlphanumeric (hc : isAlphanumeric c) : continuesIdentifier c :=
  Bool.or_eq_true_iff.mpr (.inl hc)

end SmallC.Text
