import SmallC.Proofs.Text.Quoting
import SmallC.Tree

/-!
# Written attributes

A text is written between quotes, a type or a flag as a word, and a constant as a number. None of
these looks like another, and none of them has a line end or goes on behind a parenthesis. So an
attribute can be read back, but for the type of a constant.
-/

namespace SmallC

open Text

/-! ## Constants -/

/-- A decimal with its digits in place is written with digits and a point. -/
theorem Decimal.of_mem_positional {d : Decimal} {c : Char} (hc : c ∈ d.positional) :
    c.isDigit ∨ c = '.' := by
  have hdigits (hc : c ∈ Nat.toDigits 10 d.digits) : c.isDigit :=
    Nat.isDigit_of_mem_toDigits (by decide) (by decide) hc
  have hzero (n : Nat) (hc : c ∈ List.replicate n '0') : c.isDigit := by
    rw [List.eq_of_mem_replicate hc]
    rfl
  unfold positional at hc
  split at hc
  · rcases List.mem_append.mp hc with hc | hc
    · exact .inl (hdigits hc)
    · exact .inl (hzero _ hc)
  · dsimp only at hc
    split at hc
    · rcases List.mem_append.mp hc with hc | hc
      · exact .inl (hdigits (List.mem_of_mem_take hc))
      · rcases List.mem_cons.mp hc with rfl | hc
        · exact .inr rfl
        · exact .inl (hdigits (List.mem_of_mem_drop hc))
    · rcases List.mem_cons.mp hc with rfl | hc
      · exact .inl rfl
      rcases List.mem_append.mp hc with hc | hc
      · rcases List.mem_cons.mp hc with rfl | hc
        · exact .inr rfl
        · exact .inl (hzero _ hc)
      · exact .inl (hdigits hc)

namespace Constant

/-- A character that constants are written with. -/
def isNumeric (c : Char) : Bool := c.isDigit || ['-', '.', 'N', 'a', 'i', 'n', 'f'].contains c

/-- Digits stand in numbers. -/
theorem isNumeric_of_isDigit {c : Char} (hc : c.isDigit) : isNumeric c := by
  simp [isNumeric, hc]

/-- A natural number is written with digits. -/
theorem isNumeric_of_mem_repr {n : Nat} {c : Char} (hc : c ∈ n.repr.toList) : isNumeric c := by
  rw [Nat.repr_eq_ofList_toDigits, String.toList_ofList] at hc
  exact isNumeric_of_isDigit (Nat.isDigit_of_mem_toDigits (by decide) (by decide) hc)

/-- A whole number is written with digits and a sign. -/
theorem isNumeric_of_mem_toString {n : Int} {c : Char} (hc : c ∈ (toString n).toList) :
    isNumeric c := by
  rw [Int.toString_eq_repr] at hc
  cases n with
  | ofNat n => exact isNumeric_of_mem_repr hc
  | negSucc n =>
    rw [Int.repr, String.toList_append] at hc
    rcases List.mem_append.mp hc with hc | hc
    · obtain rfl : c = '-' := by simpa using hc
      rfl
    · exact isNumeric_of_mem_repr hc

/-- A sign in front of what stands in numbers stands in numbers. -/
theorem isNumeric_of_mem_signed {negative : Bool} {cs : List Char} {c : Char}
    (hcs : ∀ d ∈ cs, isNumeric d) (hc : c ∈ (Binary.signed negative cs).toList) :
    isNumeric c := by
  rw [Binary.signed, String.toList_ofList] at hc
  split at hc
  · rcases List.mem_cons.mp hc with rfl | hc
    · rfl
    · exact hcs c hc
  · exact hcs c hc

/-- A number in single precision is written with what stands in numbers, and so are infinities and
what is no number. -/
theorem isNumeric_of_mem_binary {x : Binary} {c : Char}
    (hc : c ∈ (Binary.single.text x).toList) : isNumeric c := by
  cases x with
  | nan =>
    have hcs : "NaN".toList.all isNumeric := by decide
    exact List.all_eq_true.mp hcs c hc
  | infinite negative =>
    have hcs : ['i', 'n', 'f'].all isNumeric := by decide
    exact isNumeric_of_mem_signed (List.all_eq_true.mp hcs) hc
  | finite negative m e =>
    rw [Binary.Format.text] at hc
    split at hc
    · have hcs : ['0'].all isNumeric := by decide
      exact isNumeric_of_mem_signed (List.all_eq_true.mp hcs) hc
    · refine isNumeric_of_mem_signed (fun d hd => ?_) hc
      rcases Decimal.of_mem_positional hd with hdigit | rfl
      · exact isNumeric_of_isDigit hdigit
      · rfl

/-- A constant is written with what stands in numbers. -/
theorem isNumeric_of_mem_text {value : Constant} {c : Char} (hc : c ∈ value.text.toList) :
    isNumeric c := by
  cases value with
  | int n => exact isNumeric_of_mem_toString hc
  | float x => exact isNumeric_of_mem_binary hc
  | char n => exact isNumeric_of_mem_repr hc
  | short n => exact isNumeric_of_mem_toString hc
  | bool b =>
    have hcs : (Constant.bool b).text.toList.all isNumeric := by cases b <;> decide
    exact List.all_eq_true.mp hcs c hc

/-- A word with another letter is no constant. -/
theorem text_ne_of_mem {word : String} {c : Char} (hc : c ∈ word.toList)
    (hother : isNumeric c = false) (value : Constant) : value.text ≠ word := by
  rintro rfl
  rw [isNumeric_of_mem_text hc] at hother
  cases hother

end Constant

/-! ## Attributes -/

namespace Attribute

/-- Attributes that are the same, or constants that are written alike. -/
def Alike : Attribute → Attribute → Prop
  | .constant v, .constant w => v.text = w.text
  | a, b => a = b

variable {a b : Attribute}

/-- Attributes that are alike are written alike. -/
theorem Alike.written_eq (h : a.Alike b) : a.written = b.written := by
  unfold Alike at h
  split at h
  · exact h
  · rw [h]

/-- A character that words and numbers are written with. -/
def isPlain (c : Char) : Bool := c.isAlphanum || c == '-' || c == '.'

/-- What stands in numbers does not close an attribute. -/
theorem isPlain_of_isNumeric {c : Char} (hc : Constant.isNumeric c) : isPlain c := by
  simp only [Constant.isNumeric, Bool.or_eq_true, List.contains_iff_mem] at hc
  rcases hc with hdigit | hmark
  · simp [isPlain, Char.isAlphanum, hdigit]
  · have hmarks : ['-', '.', 'N', 'a', 'i', 'n', 'f'].all isPlain := by decide
    exact List.all_eq_true.mp hmarks c hmark

/-- What is written for anything but a text is a word or a number. -/
theorem isPlain_of_mem_written (ha : ∀ s, a ≠ .text s) {c : Char} (hc : c ∈ a.written.toList) :
    isPlain c := by
  cases a with
  | text s => exact absurd rfl (ha s)
  | type base =>
    have hname : base.name.toList.all isPlain := by cases base <;> decide
    exact List.all_eq_true.mp hname c hc
  | flag b =>
    have hname : (toString b).toList.all isPlain := by cases b <;> decide
    exact List.all_eq_true.mp hname c hc
  | constant value => exact isPlain_of_isNumeric (Constant.isNumeric_of_mem_text hc)

/-- An attribute has one line. -/
theorem not_mem_written (a : Attribute) : '\n' ∉ a.written.toList := by
  by_cases ha : ∃ s, a = .text s
  · obtain ⟨s, rfl⟩ := ha
    exact not_mem_quoted s
  · intro hmem
    exact absurd (isPlain_of_mem_written (fun s hs => ha ⟨s, hs⟩) hmem) (by decide)

/-- An attribute does not start like a node. -/
theorem written_append_ne (a : Attribute) (cs ds : List Char) :
    a.written.toList ++ ')' :: cs ≠ '(' :: ds := by
  intro h
  by_cases ha : ∃ s, a = .text s
  · obtain ⟨s, rfl⟩ := ha
    rw [written, toList_quoted] at h
    cases h
  · cases hwritten : a.written.toList with
    | nil =>
      rw [hwritten] at h
      cases h
    | cons c rest =>
      have hc : c ∈ a.written.toList := by
        rw [hwritten]
        exact List.mem_cons_self
      rw [hwritten] at h
      obtain rfl : c = '(' := (List.cons.inj h).1
      exact absurd (isPlain_of_mem_written (fun s hs => ha ⟨s, hs⟩) hc) (by decide)

/-- Words and numbers are told apart. -/
theorem alike_of_written_eq (ha : ∀ s, a ≠ .text s) (hb : ∀ s, b ≠ .text s)
    (h : a.written = b.written) : a.Alike b := by
  have htype (base : Primitive) (value : Constant) : value.text ≠ base.name := by
    cases base with
    | int => exact Constant.text_ne_of_mem (c := 't') (by decide) (by decide) value
    | float => exact Constant.text_ne_of_mem (c := 'l') (by decide) (by decide) value
    | bool => exact Constant.text_ne_of_mem (c := 'b') (by decide) (by decide) value
    | char => exact Constant.text_ne_of_mem (c := 'c') (by decide) (by decide) value
    | short => exact Constant.text_ne_of_mem (c := 's') (by decide) (by decide) value
    | void => exact Constant.text_ne_of_mem (c := 'v') (by decide) (by decide) value
  have hflag (flag : Bool) (value : Constant) : value.text ≠ toString flag := by
    cases flag with
    | false => exact Constant.text_ne_of_mem (c := 'l') (by decide) (by decide) value
    | true => exact Constant.text_ne_of_mem (c := 't') (by decide) (by decide) value
  have hword (base : Primitive) (flag : Bool) : base.name ≠ toString flag := by
    cases base <;> cases flag <;> decide
  cases a with
  | text s => exact absurd rfl (ha s)
  | type base =>
    cases b with
    | text s => exact absurd rfl (hb s)
    | type base' =>
      have hname : base.name = base'.name → base = base' := by
        cases base <;> cases base' <;> decide
      exact congrArg type (hname h)
    | flag flag => exact absurd h (hword base flag)
    | constant value => exact absurd h.symm (htype base value)
  | flag flag =>
    cases b with
    | text s => exact absurd rfl (hb s)
    | type base => exact absurd h.symm (hword base flag)
    | flag flag' =>
      have hname : toString flag = toString flag' → flag = flag' := by
        cases flag <;> cases flag' <;> decide
      exact congrArg Attribute.flag (hname h)
    | constant value => exact absurd h.symm (hflag flag value)
  | constant value =>
    cases b with
    | text s => exact absurd rfl (hb s)
    | type base => exact absurd h (htype base value)
    | flag flag => exact absurd h (hflag flag value)
    | constant value' => exact h

/-- What is written for an attribute ends before the closing parenthesis and determines the
attribute, but for the type of a constant. -/
theorem written_append_inj {cs ds : List Char}
    (h : a.written.toList ++ ')' :: cs = b.written.toList ++ ')' :: ds) : a.Alike b ∧ cs = ds := by
  have hquote {s : String} {b : Attribute} (hb : ∀ t, b ≠ .text t) {cs ds : List Char} :
      (quoted s).toList ++ ')' :: cs ≠ b.written.toList ++ ')' :: ds := by
    intro h
    rw [toList_quoted] at h
    cases hwritten : b.written.toList with
    | nil =>
      rw [hwritten] at h
      cases h
    | cons c rest =>
      have hc : c ∈ b.written.toList := by
        rw [hwritten]
        exact List.mem_cons_self
      rw [hwritten] at h
      obtain rfl : '"' = c := (List.cons.inj h).1
      exact absurd (isPlain_of_mem_written hb hc) (by decide)
  have hclass {a : Attribute} (ha : ∀ s, a ≠ .text s) :
      ∀ c ∈ a.written.toList, decide (c ≠ ')') = true := by
    rintro c hc
    refine decide_eq_true ?_
    rintro rfl
    exact absurd (isPlain_of_mem_written ha hc) (by decide)
  by_cases ha : ∃ s, a = .text s
  · obtain ⟨s, rfl⟩ := ha
    by_cases hb : ∃ t, b = .text t
    · obtain ⟨t, rfl⟩ := hb
      obtain ⟨rfl, hrest⟩ := quoted_append_inj h
      exact ⟨rfl, (List.cons.inj hrest).2⟩
    · exact absurd h (hquote fun t ht => hb ⟨t, ht⟩)
  · by_cases hb : ∃ t, b = .text t
    · obtain ⟨t, rfl⟩ := hb
      exact absurd h.symm (hquote fun s hs => ha ⟨s, hs⟩)
    · have ha' : ∀ s, a ≠ .text s := fun s hs => ha ⟨s, hs⟩
      have hb' : ∀ t, b ≠ .text t := fun t ht => hb ⟨t, ht⟩
      obtain ⟨hwritten, -, hrest⟩ :=
        append_cons_inj (p := (decide <| · ≠ ')')) (hclass ha') (by simp) (hclass hb') (by simp) h
      exact ⟨alike_of_written_eq ha' hb' (String.toList_inj.mp hwritten), hrest⟩

end Attribute

end SmallC
