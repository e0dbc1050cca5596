import SmallC.Proofs.Text.Digits
import SmallC.Proofs.Text.Stretches
import SmallC.Text.Quoted

/-!
# Reading quoted texts

What a character was can be told from its escaped form, and where the form ends too. So a quoted
text determines the text between the quotes, whatever comes behind the closing quote.
-/

namespace SmallC.Text

variable {c d : Char} {cs ds : List Char}

/-- The first character of a text between double quotes, and what comes behind its escaped
form. -/
def unescaped : List Char → Option (Char × List Char)
  | [] => none
  | '\\' :: c :: cs =>
    if c = 'n' then some ('\n', cs)
    else if c = 'r' then some ('\r', cs)
    else if c = 't' then some ('\t', cs)
    else if c = '0' then some ('\x00', cs)
    else if c = 'u' then
      let digits := (cs.drop 1).takeWhile (· ≠ '\x7d')
      (number? 16 digits).map fun n => (Char.ofNat n, cs.drop (digits.length + 2))
    else some (c, cs)
  | c :: cs => some (c, cs)

/-- A code point is read back as its character. -/
theorem unescaped_codePoint (c : Char) (cs : List Char) :
    unescaped (codePoint c ++ cs) = some (c, cs) := by
  have hdigits : number? 16 (Nat.toDigits 16 c.toNat) = some c.toNat :=
    number?_toDigits (by decide) (by decide) c.toNat
  have hstretch : (Nat.toDigits 16 c.toNat ++ '\x7d' :: cs).takeWhile (· ≠ '\x7d') =
      Nat.toDigits 16 c.toNat := by
    refine takeWhile_ne_append (fun hd => ?_) (by simp)
    obtain ⟨_, hvalue, -⟩ := exists_digit_of_mem_number? hdigits hd
    cases hvalue
  have hcode : codePoint c ++ cs =
      '\\' :: 'u' :: '\x7b' :: (Nat.toDigits 16 c.toNat ++ '\x7d' :: cs) := by
    simp [codePoint]
  rw [hcode, unescaped]
  simp only [List.drop_succ_cons, List.drop_zero, hstretch, hdigits, Option.map_some,
    Char.ofNat_toNat, List.drop_length_add_append]
  rfl

/-- Reading an escaped character gives the character back. -/
theorem unescaped_escaped (c : Char) (cs : List Char) :
    unescaped (escaped '"' c ++ cs) = some (c, cs) := by
  unfold escaped
  split
  · rename_i hc
    rcases hc with rfl | rfl <;> rfl
  split
  · rename_i hc
    rw [hc]
    rfl
  split
  · rename_i hc
    rw [hc]
    rfl
  split
  · rename_i hc
    rw [hc]
    rfl
  split
  · rename_i hc
    rw [hc]
    rfl
  split
  · exact unescaped_codePoint c cs
  · rename_i hc _ _ _ _ _
    have hbackslash : c ≠ '\\' := fun h => hc (.inr h)
    rw [List.singleton_append, unescaped]
    simp [hbackslash]

/-- Escaping tells characters apart, whatever is behind them. -/
theorem escaped_append_inj (h : escaped '"' c ++ cs = escaped '"' d ++ ds) : c = d ∧ cs = ds := by
  have hread := congrArg unescaped h
  rw [unescaped_escaped, unescaped_escaped] at hread
  exact Prod.mk.inj (Option.some.inj hread)

/-- No escaped character starts with the quote. -/
theorem escaped_append_ne (c : Char) (cs ds : List Char) : escaped '"' c ++ cs ≠ '"' :: ds := by
  intro h
  have hread := congrArg unescaped h
  rw [unescaped_escaped] at hread
  obtain rfl : c = '"' := (Prod.mk.inj (Option.some.inj hread)).1
  cases h

/-- Escaping tells texts apart up to the quote that closes them. -/
theorem flatMap_escaped_append_inj {vs ws : List Char}
    (h : vs.flatMap (escaped '"') ++ '"' :: cs = ws.flatMap (escaped '"') ++ '"' :: ds) :
    vs = ws ∧ cs = ds := by
  induction vs generalizing ws with
  | nil =>
    cases ws with
    | nil => exact ⟨rfl, (List.cons.inj h).2⟩
    | cons w ws =>
      rw [List.flatMap_cons, List.append_assoc] at h
      exact absurd h.symm (escaped_append_ne w _ _)
  | cons v vs ih =>
    cases ws with
    | nil =>
      rw [List.flatMap_cons, List.append_assoc] at h
      exact absurd h (escaped_append_ne v _ _)
    | cons w ws =>
      rw [List.flatMap_cons, List.flatMap_cons, List.append_assoc, List.append_assoc] at h
      obtain ⟨rfl, hrest⟩ := escaped_append_inj h
      obtain ⟨rfl, rfl⟩ := ih hrest
      exact ⟨rfl, rfl⟩

/-- A quoted text is its escaped characters between quotes. -/
theorem toList_quoted (s : String) :
    (quoted s).toList = '"' :: s.toList.flatMap (escaped '"') ++ ['"'] :=
  String.toList_ofList

/-- A quoted text ends where its closing quote is, and determines the text between the quotes. -/
theorem quoted_append_inj {s t : String} (h : (quoted s).toList ++ cs = (quoted t).toList ++ ds) :
    s = t ∧ cs = ds := by
  rw [toList_quoted, toList_quoted, List.append_assoc, List.append_assoc] at h
  obtain ⟨htext, hrest⟩ := flatMap_escaped_append_inj (List.cons.inj h).2
  exact ⟨String.toList_inj.mp htext, hrest⟩

/-! ## Quoted texts have one line -/

/-- No character is escaped with a line feed. -/
theorem not_mem_escaped (c : Char) : '\n' ∉ escaped '"' c := by
  have hcode : '\n' ∉ codePoint c := by
    have hdigits : '\n' ∉ Nat.toDigits 16 c.toNat := by
      have hnumber : number? 16 (Nat.toDigits 16 c.toNat) = some c.toNat :=
        number?_toDigits (by decide) (by decide) c.toNat
      intro hmem
      obtain ⟨_, hvalue, -⟩ := exists_digit_of_mem_number? hnumber hmem
      cases hvalue
    simp [codePoint, hdigits]
  unfold escaped
  split
  · rename_i hc
    rcases hc with rfl | rfl <;> decide
  split
  · decide
  split
  · decide
  split
  · decide
  split
  · decide
  split
  · exact hcode
  · rename_i hline _ _ _ _
    simpa using Ne.symm hline

/-- A quoted text is on one line. -/
theorem not_mem_quoted (s : String) : '\n' ∉ (quoted s).toList := by
  rw [toList_quoted]
  intro hmem
  rcases List.mem_append.mp hmem with hmem | hmem
  · rcases List.mem_cons.mp hmem with heq | hmem
    · cases heq
    · obtain ⟨c, -, hc⟩ := List.mem_flatMap.mp hmem
      exact not_mem_escaped c hc
  · simp at hmem

end SmallC.Text
