import SmallC.Proofs.Text.Stretches
import SmallC.Scan

/-!
# The segments tile the text

Each segment is cut off the start of what is left of the text, and it is never empty.
So the segments, one after the other, are the text, and every character belongs to
exactly one of them.
-/

namespace SmallC

namespace Segment

variable {c : Char} {cs : List Char}

/-! ## Starts of a text -/

/-- A segment is cut off the start of a text. -/
def Starts (s : Segment) (cs : List Char) : Prop := s.text ≠ [] ∧ s.text <+: cs

/-- A segment of the first character and some more starts the text. -/
theorem starts_cons (piece : Piece) {text : List Char} (h : text <+: cs) :
    Starts ⟨c :: text, piece⟩ (c :: cs) :=
  ⟨List.cons_ne_nil c text, List.cons_prefix_cons.mpr ⟨rfl, h⟩⟩

/-- A token of the first character and some more starts the text. -/
theorem starts_whole (kind : TokenKind) (literal : Option Literal) {text : List Char}
    (h : text <+: cs) : (whole kind literal (c :: text)).Starts (c :: cs) :=
  starts_cons _ h

/-- What is left of a text behind a segment that was cut off. -/
theorem Starts.text_append_drop {s : Segment} (h : s.Starts (c :: cs)) :
    s.text ++ cs.drop (s.text.length - 1) = c :: cs := by
  obtain ⟨hne, hprefix⟩ := h
  obtain ⟨d, text, htext⟩ := List.exists_cons_of_ne_nil hne
  rw [htext, List.cons_prefix_cons] at hprefix
  obtain ⟨rfl, hprefix⟩ := hprefix
  rw [htext, List.length_cons, Nat.add_sub_cancel, List.cons_append,
    List.prefix_iff_eq_append.mp hprefix]

/-! ## Strings and character constants -/

/-- A string starts the text at its quote, closed or not. -/
theorem starts_string (cs : List Char) : (string cs).Starts ('"' :: cs) := by
  have hcs := Text.takeWhile_append_drop (· ≠ '"') cs
  unfold string
  generalize hbody : cs.takeWhile (· ≠ '"') = body at hcs ⊢
  dsimp only
  split
  · exact starts_cons _ ⟨_, hcs⟩
  · cases hdrop : cs.drop body.length with
    | nil => contradiction
    | cons d rest =>
      rw [← hbody] at hdrop
      obtain rfl : d = '"' := by simpa using Text.not_of_drop_takeWhile hdrop
      rw [← hbody, hdrop, hbody] at hcs
      exact starts_cons _ ⟨rest, by simpa using hcs⟩

/-- A character constant goes on with a part of what follows its character. -/
theorem text_closing (start : List Char) (code : UInt64) (cs : List Char) :
    ∃ more, (closing start code cs).text = start ++ more ∧ more <+: cs := by
  fun_cases closing start code cs with
  | case1 => exact ⟨[], by simp, List.nil_prefix⟩
  | case2 cs => exact ⟨['\''], rfl, by simp⟩
  | case3 cs => exact ⟨[], by simp, List.nil_prefix⟩
  | case4 cs _ _ _ skipped quote =>
    refine ⟨skipped ++ (if quote = ['\''] then quote else []), by simp, ?_⟩
    have hcs : skipped ++ cs.drop skipped.length = cs := Text.takeWhile_append_drop _ cs
    have hquote : (if quote = ['\''] then quote else []) <+: cs.drop skipped.length := by
      split
      · exact List.take_prefix _ _
      · exact List.nil_prefix
    rw [← hcs]
    exact (List.prefix_append_right_inj skipped).mpr (by simpa [hcs] using hquote)

/-- A character that is closed or not starts the text with what was read of it. -/
theorem starts_closing {start : List Char} (hstart : start ≠ []) (code : UInt64) (cs : List Char) :
    (closing start code cs).Starts (start ++ cs) := by
  obtain ⟨more, htext, hmore⟩ := text_closing start code cs
  rw [Starts, htext]
  exact ⟨by simp [hstart], (List.prefix_append_right_inj start).mpr hmore⟩

/-- A character starts the text at its quote. -/
theorem starts_character (cs : List Char) : (character cs).Starts ('\'' :: cs) := by
  fun_cases character cs with
  | case1 => exact starts_cons _ List.nil_prefix
  | case2 => exact starts_cons _ List.nil_prefix
  | case3 => exact starts_cons _ (by simp)
  | case4 => exact starts_cons _ (List.prefix_refl _)
  | case5 => exact starts_cons _ (by simp)
  | case6 d cs _ code _ => exact starts_closing (List.cons_ne_nil _ _) code cs
  | case7 d cs _ _ => exact starts_cons _ (by simp)
  | case8 d cs => exact starts_closing (List.cons_ne_nil _ _) _ cs

/-! ## Numbers, words and symbols -/

/-- A whole number covers its digits, readable or not. -/
theorem text_wholeNumber (digits : List Char) : (wholeNumber digits).text = digits := by
  fun_cases wholeNumber digits <;> rfl

/-- A number starts the text. -/
theorem starts_number (c : Char) (cs : List Char) : (number c cs).Starts (c :: cs) := by
  have hcs := Text.takeWhile_append_drop Text.isDigit cs
  unfold number
  generalize hdigits : cs.takeWhile Text.isDigit = digits at hcs ⊢
  dsimp only
  split
  · rename_i rest hdrop
    rw [hdrop] at hcs
    refine starts_whole _ _ ?_
    rw [← hcs]
    refine (List.prefix_append_right_inj digits).mpr ?_
    exact List.cons_prefix_cons.mpr ⟨rfl, List.takeWhile_prefix _⟩
  · rw [Starts, text_wholeNumber]
    exact ⟨List.cons_ne_nil c digits, List.cons_prefix_cons.mpr ⟨rfl, _, hcs⟩⟩

/-- A word starts the text. -/
theorem starts_word (c : Char) (cs : List Char) : (word c cs).Starts (c :: cs) := by
  unfold word
  dsimp only
  split <;> exact starts_whole _ _ (List.takeWhile_prefix _)

/-- A symbol starts the text. -/
theorem starts_symbol (c : Char) (sign : Symbol) (cs : List Char) :
    (symbol c sign cs).Starts (c :: cs) := by
  unfold symbol
  split
  · exact starts_whole _ _ (by simp)
  · exact starts_whole _ _ List.nil_prefix

/-- The first segment of a text is cut off its start. -/
theorem starts_first (c : Char) (cs : List Char) : (first c cs).Starts (c :: cs) := by
  unfold first
  split
  · exact starts_cons _ List.nil_prefix
  split
  · exact starts_cons _ (List.takeWhile_prefix _)
  split
  · rename_i hquote
    subst hquote
    exact starts_string cs
  split
  · rename_i hquote
    subst hquote
    exact starts_character cs
  split
  · exact starts_number c cs
  split
  · exact starts_word c cs
  split
  · exact starts_symbol c _ cs
  · exact starts_cons _ List.nil_prefix

/-! ## Contributions -/

/-- What a segment may contribute, given the text behind it: nothing if it is a white
character or a comment that goes on to the end of its line, the token that it spells, or
a fault. -/
def Contributes (s : Segment) (rest : List Char) : Prop :=
  match s.piece with
  | .gap =>
    (∃ c ∈ [' ', '\t', '\r', '\n', '\x00'], s.text = [c]) ∨
      ∃ comment, s.text = '/' :: '/' :: comment ∧ '\n' ∉ comment ∧ ∀ d ∈ rest.head?, d = '\n'
  | .token kind lexeme _ => s.text = if kind = .string then '"' :: lexeme ++ ['"'] else lexeme
  | .fault _ => True

variable {rest : List Char}

/-- A token that is no string contributes what it covers. -/
theorem contributes_whole {kind : TokenKind} (hkind : kind ≠ .string) (literal : Option Literal)
    (text : List Char) : (whole kind literal text).Contributes rest := by
  simp [whole, Contributes, hkind]

/-- A string contributes the text between its quotes, or that it is not closed. -/
theorem contributes_string (cs : List Char) : (string cs).Contributes rest := by
  unfold string
  dsimp only
  split <;> simp [Contributes]

/-- A character contributes its code, or that it is not closed. -/
theorem contributes_closing (start : List Char) (code : UInt64) (cs : List Char) :
    (closing start code cs).Contributes rest := by
  fun_cases closing start code cs with
  | case2 => exact contributes_whole (by simp) _ _
  | _ => trivial

/-- A character contributes its code, or what is wrong with it. -/
theorem contributes_character (cs : List Char) : (character cs).Contributes rest := by
  fun_cases character cs with
  | case6 => exact contributes_closing _ _ _
  | case8 => exact contributes_closing _ _ _
  | _ => trivial

/-- A number contributes its value, or that it is too large. -/
theorem contributes_number (c : Char) (cs : List Char) : (number c cs).Contributes rest := by
  unfold number wholeNumber
  dsimp only
  split
  · exact contributes_whole (by simp) _ _
  split
  · split
    · exact contributes_whole (by simp) _ _
    · trivial
  · trivial

/-- A word contributes a keyword or an identifier. -/
theorem contributes_word (c : Char) (cs : List Char) : (word c cs).Contributes rest := by
  unfold word
  dsimp only
  split <;> exact contributes_whole (by simp) _ _

/-- A symbol contributes itself, alone or with an equals sign. -/
theorem contributes_symbol (c : Char) (sign : Symbol) (cs : List Char) :
    (symbol c sign cs).Contributes rest := by
  unfold symbol
  split <;> exact contributes_whole (by simp) _ _

/-- A white character contributes nothing. -/
theorem contributes_white (h : isGap c = true) : Contributes ⟨[c], .gap⟩ rest := by
  refine .inl ⟨c, ?_, rfl⟩
  simpa [isGap, or_assoc] using h

/-- A comment goes on up to the next line feed, if there is one. -/
theorem contributes_comment (h : cs.head? = some '/') :
    Contributes ⟨'/' :: cs.takeWhile (· ≠ '\n'), .gap⟩
      (cs.drop (cs.takeWhile (· ≠ '\n')).length) := by
  obtain ⟨cs', rfl⟩ : ∃ cs', cs = '/' :: cs' := List.head?_eq_some_iff.mp h
  refine .inr ⟨cs'.takeWhile (· ≠ '\n'), rfl, ?_, ?_⟩
  · intro hmem
    simpa using List.all_eq_true.mp List.all_takeWhile _ hmem
  · intro d hd
    obtain ⟨rest, hrest⟩ := List.head?_eq_some_iff.mp hd
    simpa using Text.not_of_drop_takeWhile hrest

/-- The first segment contributes what it may before what is behind it. -/
theorem contributes_first (c : Char) (cs : List Char) :
    (first c cs).Contributes (cs.drop ((first c cs).text.length - 1)) := by
  generalize hrest : cs.drop ((first c cs).text.length - 1) = rest
  unfold first at hrest ⊢
  split
  · rename_i hgap
    exact contributes_white hgap
  split
  · rename_i hgap hcomment
    rw [if_neg hgap, if_pos hcomment] at hrest
    subst hrest
    obtain ⟨rfl, hslash⟩ := hcomment
    exact contributes_comment hslash
  split
  · exact contributes_string cs
  split
  · exact contributes_character cs
  split
  · exact contributes_number c cs
  split
  · exact contributes_word c cs
  split
  · exact contributes_symbol c _ cs
  · trivial

/-! ## The whole text -/

/-- Induction on a text that takes one segment off it in each step. -/
theorem induction_on_rest {motive : List Char → Prop} (nil : motive [])
    (cons : ∀ c cs, motive (cs.drop ((first c cs).text.length - 1)) → motive (c :: cs))
    (cs : List Char) : motive cs :=
  allFrom.induct (motive := fun _ cs => motive cs) (fun _ => nil) (fun _ => cons) [] cs

/-- The segments of a text come behind those that were cut off before. -/
theorem allFrom_eq (done : List Segment) (cs : List Char) :
    allFrom done cs = done.reverse ++ allFrom [] cs := by
  induction cs using induction_on_rest generalizing done with
  | nil => simp [allFrom]
  | cons c cs ih =>
    rw [allFrom, ih, allFrom, ih [_]]
    simp

/-- An empty text has no segments. -/
theorem all_nil : all [] = [] := by
  rw [all, allFrom, List.reverse_nil]

/-- The segments of a text are its first one and those of the rest. -/
theorem all_cons (c : Char) (cs : List Char) :
    all (c :: cs) = first c cs :: all (cs.drop ((first c cs).text.length - 1)) := by
  rw [all, allFrom, allFrom_eq]
  rfl

/-- Segments cover a text from its start to its end, one after the other and none of them
empty, and each contributes what it may before what is left behind it. -/
def Tiles : List Segment → List Char → Prop
  | [], cs => cs = []
  | s :: segments, cs =>
    s.text ≠ [] ∧ ∃ rest, s.text ++ rest = cs ∧ s.Contributes rest ∧ Tiles segments rest

/-- What segments cover is what they are, one after the other. -/
theorem Tiles.flatMap_text {segments : List Segment} {cs : List Char} (h : Tiles segments cs) :
    segments.flatMap (·.text) = cs := by
  induction segments generalizing cs with
  | nil => exact h.symm
  | cons s segments ih =>
    obtain ⟨-, rest, rfl, -, hrest⟩ := h
    rw [List.flatMap_cons, ih hrest]

/-- The segments of a text tile it. -/
theorem tiles_all (cs : List Char) : Tiles (all cs) cs := by
  induction cs using induction_on_rest with
  | nil =>
    rw [all_nil]
    rfl
  | cons c cs ih =>
    have hstarts : (first c cs).Starts (c :: cs) := starts_first c cs
    rw [all_cons]
    exact ⟨hstarts.1, _, hstarts.text_append_drop, contributes_first c cs, ih⟩

end Segment

end SmallC
