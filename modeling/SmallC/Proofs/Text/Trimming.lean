import SmallC.Proofs.Text.Digits
import SmallC.Text.Space

/-!
# Trimming

Trimming takes the white space off both ends of a text and leaves everything else as it is.
-/

namespace SmallC.Text

variable {c : Char} {cs : List Char}

/-- No digit is white. -/
theorem isSpace_of_digitValue {d : Nat} (h : digitValue c = some d) : isSpace c = false := by
  have hcode := toNat_of_digitValue h
  simp only [isSpace, Bool.or_eq_false_iff, Bool.and_eq_false_iff, beq_eq_false_iff_ne,
    decide_eq_false_iff_not]
  omega

/-- A text without white space at its ends. -/
def IsTrimmed (cs : List Char) : Prop :=
  (∀ c ∈ cs.head?, isSpace c = false) ∧ ∀ c ∈ cs.getLast?, isSpace c = false

/-- Nothing is trimmed in front of a character that is not white. -/
theorem trimStart_of_head? (h : ∀ c ∈ cs.head?, isSpace c = false) : trimStart cs = cs := by
  cases cs with
  | nil => rfl
  | cons c cs => exact List.dropWhile_cons_of_neg (by simp [h c rfl])

/-- Nothing is trimmed behind a character that is not white. -/
theorem trimEnd_of_getLast? (h : ∀ c ∈ cs.getLast?, isSpace c = false) : trimEnd cs = cs := by
  have hreverse : trimStart cs.reverse = cs.reverse := by
    refine trimStart_of_head? ?_
    rwa [List.head?_reverse]
  rw [trimEnd, ← trimStart, hreverse, List.reverse_reverse]

/-- A text without white ends is trimmed already. -/
theorem trim_of_isTrimmed (h : IsTrimmed cs) : trim cs = cs := by
  rw [trim, trimStart_of_head? h.1, trimEnd_of_getLast? h.2]

/-- A text without white space is trimmed already. -/
theorem trim_eq_self (h : ∀ c ∈ cs, isSpace c = false) : trim cs = cs :=
  trim_of_isTrimmed ⟨fun c hc => h c (List.mem_of_head? hc),
    fun c hc => h c (List.mem_of_getLast? hc)⟩

/-- A white character in front is trimmed. -/
theorem trim_cons_of_isSpace (hc : isSpace c) (cs : List Char) : trim (c :: cs) = trim cs := by
  rw [trim, trimStart, List.dropWhile_cons_of_pos hc, ← trimStart, ← trim]

/-- Trimming adds no characters. -/
theorem mem_of_mem_trimEnd (hc : c ∈ trimEnd cs) : c ∈ cs :=
  List.mem_reverse.mp ((List.dropWhile_sublist _).mem (List.mem_reverse.mp hc))

/-- Nothing is taken off the end before a character that is no white space. -/
theorem trimEnd_append_cons (hc : isSpace c = false) (cs ds : List Char) :
    trimEnd (cs ++ c :: ds) = cs ++ c :: trimEnd ds := by
  rw [trimEnd, trimEnd, List.reverse_append, List.reverse_cons, List.append_assoc,
    List.singleton_append, List.dropWhile_append]
  split
  · rename_i hnil
    rw [List.isEmpty_iff.mp hnil, List.dropWhile_cons_of_neg (by simp [hc])]
    simp
  · simp

/-- A text between two characters that are no white space stays as it is. -/
theorem trim_delimited {d : Char} (hc : isSpace c = false) (hd : isSpace d = false)
    (cs rest : List Char) :
    trim (' ' :: c :: (cs ++ d :: rest)) = c :: (cs ++ d :: trimEnd rest) := by
  rw [trim_cons_of_isSpace rfl, trim, trimStart_of_head? (by simpa using hc), ← List.cons_append,
    trimEnd_append_cons hd, List.cons_append]

end SmallC.Text
