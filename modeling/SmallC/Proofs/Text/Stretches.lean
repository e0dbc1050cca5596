/-!
# Stretches of characters

A stretch is as long a start of a text as possible that has characters of one class only.
-/

namespace SmallC.Text

variable {cs : List Char}

/-- A stretch of characters of one class, and what comes after it. -/
theorem takeWhile_append_drop (p : Char → Bool) (cs : List Char) :
    cs.takeWhile p ++ cs.drop (cs.takeWhile p).length = cs :=
  List.prefix_iff_eq_append.mp (List.takeWhile_prefix p)

/-- A stretch of characters of one class ends before a character of another. -/
theorem not_of_drop_takeWhile {p : Char → Bool} {d : Char} {rest : List Char}
    (h : cs.drop (cs.takeWhile p).length = d :: rest) : p d = false := by
  induction cs with
  | nil => cases h
  | cons c cs ih =>
    cases hc : p c with
    | true =>
      rw [List.takeWhile_cons_of_pos hc] at h
      exact ih h
    | false =>
      rw [List.takeWhile_cons_of_neg (by simp [hc])] at h
      cases h
      exact hc

/-- A stretch of characters of one class ends where it did, if a character of another comes
behind it. -/
theorem takeWhile_append_cons_of_neg {p : Char → Bool} {d : Char} (hd : p d = false)
    (cs ds : List Char) : (cs ++ d :: ds).takeWhile p = cs.takeWhile p := by
  induction cs with
  | nil => rw [List.nil_append, List.takeWhile_cons_of_neg (by simp [hd]), List.takeWhile_nil]
  | cons c cs ih =>
    cases hc : p c with
    | true =>
      rw [List.cons_append, List.takeWhile_cons_of_pos hc, List.takeWhile_cons_of_pos hc, ih]
    | false =>
      rw [List.cons_append, List.takeWhile_cons_of_neg (by simp [hc]),
        List.takeWhile_cons_of_neg (by simp [hc])]

/-- Characters of one class are a stretch, if no character of that class comes behind them. -/
theorem takeWhile_append_of_ends {p : Char → Bool} {rest : List Char} (hcs : ∀ c ∈ cs, p c)
    (hrest : ∀ d ∈ rest.head?, p d = false) : (cs ++ rest).takeWhile p = cs := by
  rw [List.takeWhile_append_of_pos hcs]
  cases rest with
  | nil => rw [List.takeWhile_nil, List.append_nil]
  | cons d rest =>
    rw [List.takeWhile_cons_of_neg (by simp [hrest d rfl]), List.append_nil]

/-- What a stretch is, said of the stretch and of what comes behind it. -/
theorem takeWhile_append_eq_iff {p : Char → Bool} {rest : List Char} :
    (cs ++ rest).takeWhile p = cs ↔ (∀ c ∈ cs, p c) ∧ ∀ d ∈ rest.head?, p d = false := by
  refine ⟨fun h => ⟨fun c hc => ?_, fun d hd => ?_⟩, fun h => takeWhile_append_of_ends h.1 h.2⟩
  · rw [← h] at hc
    exact List.all_eq_true.mp List.all_takeWhile c hc
  · obtain ⟨more, rfl⟩ := List.head?_eq_some_iff.mp hd
    have hdrop : (cs ++ d :: more).drop ((cs ++ d :: more).takeWhile p).length = d :: more := by
      rw [h, List.drop_left]
    exact not_of_drop_takeWhile hdrop

/-- A text without a character is the stretch up to this character. -/
theorem takeWhile_ne_append {d : Char} {rest : List Char} (hcs : d ∉ cs)
    (hrest : ∀ e ∈ rest.head?, e = d) : (cs ++ rest).takeWhile (· ≠ d) = cs := by
  refine takeWhile_append_of_ends (fun c hc => decide_eq_true ?_) (by simpa using hrest)
  rintro rfl
  exact hcs hc

/-- Where a word of one class ends is told by the first character of no such class. -/
theorem append_cons_inj {p : Char → Bool} {v w cs ds : List Char} {c d : Char}
    (hv : ∀ a ∈ v, p a) (hc : p c = false) (hw : ∀ a ∈ w, p a) (hd : p d = false)
    (h : v ++ c :: cs = w ++ d :: ds) : v = w ∧ c = d ∧ cs = ds := by
  have hstretch : (v ++ c :: cs).takeWhile p = v :=
    takeWhile_append_of_ends hv (by simpa using hc)
  have hword : v = w := by
    rw [← hstretch, h, takeWhile_append_of_ends hw (by simpa using hd)]
  subst hword
  exact ⟨rfl, List.cons.inj (List.append_cancel_left h)⟩

end SmallC.Text
