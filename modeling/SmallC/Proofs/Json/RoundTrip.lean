import SmallC.Proofs.Json.Numerals

/-!
# Reading what was written

Every value that is written over several lines is read back: its strings, its whole numbers and
its truth values as they were, its lists in their order, its members in the order of their keys,
and its floating-point values as the decimals that they were written as.
-/

namespace SmallC

namespace Json

/-! ## What is read back -/

/-- What a floating-point value is read as, when it was written in some format. -/
def reread (f : Binary.Format) : Binary → Json
  | .nan => .null
  | .infinite _ => .null
  | .finite negative m e =>
    .real Binary.double (Binary.double.nearest negative (f.decimal m e))

mutual

/-- What a written value is read as. -/
def decoded : Json → Json
  | .null => .null
  | .bool b => .bool b
  | .whole n => .whole n
  | .real f x => reread f x
  | .string s => .string s
  | .array items => .array (decodedItems items)
  | .object members => .object (ordered (decodedMembers members))

/-- What written items are read as. -/
def decodedItems : List Json → List Json
  | [] => []
  | item :: items => item.decoded :: decodedItems items

/-- What written members are read as. -/
def decodedMembers : List (String × Json) → List (String × Json)
  | [] => []
  | (key, value) :: members => (key, value.decoded) :: decodedMembers members

end

/-! ## What is written -/

/-- The characters of a line break and the indentation of a level. -/
def breakText (level : Nat) : List Char := '\n' :: List.replicate (2 * level) ' '

mutual

/-- The characters of a value over several lines. -/
def text (level : Nat) : Json → List Char
  | .array [] => ['[', ']']
  | .array (item :: items) =>
    '[' :: breakText (level + 1) ++ text (level + 1) item ++ textOfMoreItems (level + 1) items ++
      breakText level ++ [']']
  | .object [] => ['\x7b', '\x7d']
  | .object ((key, value) :: members) =>
    '\x7b' :: breakText (level + 1) ++ (quoted key).toList ++
      ':' :: ' ' :: text (level + 1) value ++
      textOfMoreMembers (level + 1) members ++ breakText level ++ ['\x7d']
  | .null => (atom .null).toList
  | .bool b => (atom (.bool b)).toList
  | .whole n => (atom (.whole n)).toList
  | .real f x => (atom (.real f x)).toList
  | .string s => (atom (.string s)).toList

/-- The characters of items with a comma and a line break before each of them. -/
def textOfMoreItems (level : Nat) : List Json → List Char
  | [] => []
  | item :: items => ',' :: breakText level ++ text level item ++ textOfMoreItems level items

/-- The characters of members with a comma and a line break before each of them. -/
def textOfMoreMembers (level : Nat) : List (String × Json) → List Char
  | [] => []
  | (key, value) :: members =>
    ',' :: breakText level ++ (quoted key).toList ++ ':' :: ' ' :: text level value ++
      textOfMoreMembers level members

end

mutual

/-- What is written on indented lines is the text of the document, behind whatever was written
before it. -/
theorem toList_writeLines (out : String) (level : Nat) (j : Json) :
    (writeLines out level j).toList = out.toList ++ text level j := by
  cases j with
  | array items =>
    cases items with
    | nil => simp [writeLines, text]
    | cons item items =>
      rw [writeLines, text, String.toList_push, String.toList_append,
        toList_writeLinesMoreItems, toList_writeLines]
      simp [breakLine, breakText]
  | object members =>
    cases members with
    | nil => simp [writeLines, text]
    | cons member members =>
      obtain ⟨key, value⟩ := member
      rw [writeLines, text, String.toList_push, String.toList_append,
        toList_writeLinesMoreMembers, toList_writeLines]
      simp [breakLine, breakText]
  | null => simp [writeLines, text]
  | bool b => simp [writeLines, text]
  | whole n => simp [writeLines, text]
  | real f x => simp [writeLines, text]
  | string s => simp [writeLines, text]

/-- The items behind the first one are written behind what there is. -/
theorem toList_writeLinesMoreItems (out : String) (level : Nat) (items : List Json) :
    (writeLinesMoreItems out level items).toList = out.toList ++ textOfMoreItems level items := by
  cases items with
  | nil => simp [writeLinesMoreItems, textOfMoreItems]
  | cons item items =>
    rw [writeLinesMoreItems, textOfMoreItems, toList_writeLinesMoreItems, toList_writeLines]
    simp [breakLine, breakText]

/-- The members behind the first one are written behind what there is. -/
theorem toList_writeLinesMoreMembers (out : String) (level : Nat) (members : List (String × Json)) :
    (writeLinesMoreMembers out level members).toList =
      out.toList ++ textOfMoreMembers level members := by
  cases members with
  | nil => simp [writeLinesMoreMembers, textOfMoreMembers]
  | cons member members =>
    obtain ⟨key, value⟩ := member
    rw [writeLinesMoreMembers, textOfMoreMembers, toList_writeLinesMoreMembers, toList_writeLines]
    simp [breakLine, breakText]

end

/-- The indented document, as a text of its own. -/
theorem toList_lines (j : Json) : j.lines.toList = j.text 0 := toList_writeLines "" 0 j

/-! ## Reading it back -/

variable {rest : List Char}

/-- No blank is skipped where there is none. -/
theorem skipBlank_of_ne {c : Char} (hc : isBlank c = false) (cs : List Char) :
    skipBlank (c :: cs) = c :: cs := by
  rw [skipBlank, List.dropWhile_cons_of_neg (by simp [hc])]

/-- Blanks are skipped up to the first character that is none. -/
theorem skipBlank_append {blanks : List Char} (hblanks : ∀ c ∈ blanks, isBlank c)
    (cs : List Char) : skipBlank (blanks ++ cs) = skipBlank cs :=
  List.dropWhile_append_of_pos hblanks

/-- A line break and what indents the next line are blanks. -/
theorem isBlank_of_mem_breakText {level : Nat} {c : Char} (hc : c ∈ breakText level) :
    isBlank c := by
  rcases List.mem_cons.mp hc with rfl | hc
  · rfl
  · rw [List.eq_of_mem_replicate hc]
    rfl

/-- A sign is found behind a line break. -/
theorem after?_breakText (c : Char) (level : Nat) (cs : List Char) :
    after? c (breakText level ++ cs) = after? c cs := by
  rw [after?, after?, skipBlank_append fun _ => isBlank_of_mem_breakText]

/-- A sign that stands first is found. -/
theorem after?_self {c : Char} (hc : isBlank c = false) (cs : List Char) :
    after? c (c :: cs) = some cs := by
  rw [after?, skipBlank_of_ne hc]
  exact if_pos rfl

/-- A sign is not found where another character stands first. -/
theorem after?_of_ne {c d : Char} (hd : isBlank d = false) (hne : d ≠ c) (cs : List Char) :
    after? c (d :: cs) = none := by
  rw [after?, skipBlank_of_ne hd]
  exact if_neg hne

/-- White characters before a value do not count. -/
theorem value?_append {blanks : List Char} (hblanks : ∀ c ∈ blanks, isBlank c) (fuel : Nat)
    (cs : List Char) : value? fuel (blanks ++ cs) = value? fuel cs := by
  cases fuel with
  | zero => rfl
  | succ fuel => rw [value?, value?, skipBlank_append hblanks]

/-- A number starts with its sign or with a digit. -/
theorem Numeral.WellFormed.exists_text {n : Numeral} (h : n.WellFormed) :
    ∃ c cs, n.text = c :: cs ∧ (c = '-' ∨ Text.isDigit c) := by
  obtain ⟨d, ds, hds⟩ := List.exists_cons_of_ne_nil h.nonempty
  have hd : Text.isDigit d := h.digits d (by rw [hds]; exact List.mem_cons_self)
  unfold Numeral.text
  rw [hds]
  cases n.negative with
  | true => exact ⟨'-', _, rfl, .inl rfl⟩
  | false => exact ⟨d, _, rfl, .inr hd⟩

/-- A numeral is a value, up to where it is parted from what is behind it. -/
theorem value?_numeral {n : Numeral} (h : n.WellFormed) (hrest : Numeral.Parted rest) (fuel : Nat) :
    value? (fuel + 1) (n.text ++ rest) = some (n.value, rest) := by
  have hread := numeral?_text h hrest
  obtain ⟨c, cs, htext, hc⟩ := h.exists_text
  have hne (d : Char) (hd : d ≠ '-') (hdigit : Text.isDigit d = false) : c ≠ d := by
    rintro rfl
    rcases hc with rfl | hc
    · exact hd rfl
    · rw [hdigit] at hc
      cases hc
  rw [htext, List.cons_append] at hread ⊢
  have hblank : isBlank c = false := by
    simp [isBlank, hne ' ' (by decide) rfl, hne '\n' (by decide) rfl, hne '\r' (by decide) rfl,
      hne '\t' (by decide) rfl]
  rw [value?, skipBlank_of_ne hblank]
  split
  case h_7 => rw [hread, Option.map_some]
  all_goals
    rename_i heq
    exact absurd (List.cons.inj heq).1 (hne _ (by decide) rfl)

/-- A quoted text, with what comes behind it, as the characters that are read one by one. -/
theorem toList_quoted_append (s : String) (rest : List Char) :
    (quoted s).toList ++ rest = '"' :: (s.toList.flatMap escaped ++ '"' :: rest) := by
  simp [quoted]

/-- A string is read back, with all its escapes. -/
theorem value?_string (s : String) (rest : List Char) (fuel : Nat) :
    value? (fuel + 1) ((quoted s).toList ++ rest) = some (.string s, rest) := by
  have hread : value? (fuel + 1) ('"' :: (s.toList.flatMap escaped ++ '"' :: rest)) =
      (string? (s.toList.flatMap escaped ++ '"' :: rest)).map
        fun r => (.string (String.ofList r.1), r.2) := rfl
  rw [toList_quoted_append, hread, string?_quoted, Option.map_some, String.ofList_toList]

/-- What comes behind a written value: the end of the text, a comma, or a line break. -/
def Behind (rest : List Char) : Prop := ∀ d ∈ rest.head?, d = ',' ∨ d = '\n'

/-- What comes behind a written value parts it, even if it is a number. -/
theorem Behind.parted (h : Behind rest) : Numeral.Parted rest := by
  intro d hd
  rcases h d hd with rfl | rfl <;> decide

/-- A number with a fraction is read back as the double that its digits are nearest to; what is no
number comes back as null. -/
theorem value?_real (f : Binary.Format) (x : Binary) (hrest : Behind rest) (fuel : Nat) :
    value? (fuel + 1) ((atom (.real f x)).toList ++ rest) = some (reread f x, rest) := by
  have hnull : value? (fuel + 1) ((atom .null).toList ++ rest) = some (.null, rest) := rfl
  cases x with
  | nan => exact hnull
  | infinite negative => exact hnull
  | finite negative m e =>
    have hread := value?_numeral (Numeral.wellFormed_ofReal f negative m e) hrest.parted fuel
    rw [atom, Numeral.serialized_finite, Option.getD_some, String.toList_ofList, hread,
      Numeral.value_ofReal]
    rfl

/-- A whole number is read back as itself. -/
theorem value?_whole (n : Int) (hrest : Behind rest) (fuel : Nat) :
    value? (fuel + 1) ((atom (.whole n)).toList ++ rest) = some (.whole n, rest) := by
  have hread := value?_numeral (Numeral.wellFormed_ofWhole n) hrest.parted fuel
  rwa [Numeral.text_ofWhole, Numeral.value_ofWhole] at hread

/-- Behind a written item there is a comma or a line break. -/
theorem behind_moreItems (level outer : Nat) (items : List Json) (cs : List Char) :
    Behind (textOfMoreItems level items ++ (breakText outer ++ cs)) := by
  cases items with
  | nil => exact fun d hd => .inr (Option.some.inj hd).symm
  | cons item items => exact fun d hd => .inl (Option.some.inj hd).symm

/-- Behind a written member there is a comma or a line break. -/
theorem behind_moreMembers (level outer : Nat) (members : List (String × Json)) (cs : List Char) :
    Behind (textOfMoreMembers level members ++ (breakText outer ++ cs)) := by
  cases members with
  | nil => exact fun d hd => .inr (Option.some.inj hd).symm
  | cons member members => exact fun d hd => .inl (Option.some.inj hd).symm

/-- No value starts with the end of a list. -/
theorem after?_of_value? {fuel : Nat} {cs : List Char} {read : Json × List Char}
    (h : value? fuel cs = some read) : after? ']' cs = none := by
  cases fuel with
  | zero => cases h
  | succ fuel =>
    cases hcs : skipBlank cs with
    | nil => rw [after?, hcs]
    | cons d ds =>
      rw [after?, hcs]
      refine if_neg ?_
      rintro rfl
      rw [value?, hcs] at h
      cases h

/-- A line break in front of items does not matter. -/
theorem items?_breakText (fuel level : Nat) (cs : List Char) :
    items? fuel (breakText level ++ cs) = items? fuel cs := by
  cases fuel with
  | zero => rfl
  | succ fuel => rw [items?, items?, value?_append fun _ => isBlank_of_mem_breakText]

/-- A line break in front of members does not matter. -/
theorem members?_breakText (fuel level : Nat) (cs : List Char) :
    members? fuel (breakText level ++ cs) = members? fuel cs := by
  cases fuel with
  | zero => rfl
  | succ fuel => rw [members?, members?, after?_breakText]

/-- A list is read as its items are. -/
theorem value?_array {fuel : Nat} {cs : List Char} {items : List Json}
    (hnone : after? ']' cs = none) (h : items? fuel cs = some (items, rest)) :
    value? (fuel + 1) ('[' :: cs) = some (.array items, rest) := by
  rw [value?, skipBlank_of_ne rfl]
  simp only [hnone, h, Option.map_some]

/-- An object is read as its members are. -/
theorem value?_object {fuel : Nat} {cs : List Char} {members : List (String × Json)}
    (hnone : after? '\x7d' cs = none) (h : members? fuel cs = some (members, rest)) :
    value? (fuel + 1) ('\x7b' :: cs) = some (.object (ordered members), rest) := by
  rw [value?, skipBlank_of_ne rfl]
  simp only [hnone, h, Option.map_some]

mutual

/-- A written value is read back. -/
theorem value?_text (j : Json) (level fuel : Nat) (rest : List Char)
    (hfuel : (text level j).length < fuel) (hrest : Behind rest) :
    value? fuel (text level j ++ rest) = some (j.decoded, rest) := by
  obtain ⟨fuel, rfl⟩ : ∃ n, fuel = n + 1 := Nat.exists_eq_add_one_of_ne_zero (by omega)
  cases j with
  | array items =>
    cases items with
    | nil => rfl
    | cons item items =>
      simp only [text, breakText, List.length_append, List.length_cons] at hfuel
      have hitems := items?_text item items (level + 1) level fuel rest (by omega)
      have hitem := value?_text item (level + 1) fuel _ (by omega)
        (behind_moreItems (level + 1) level items (']' :: rest))
      have htext : text level (.array (item :: items)) ++ rest = '[' :: (breakText (level + 1) ++
          (text (level + 1) item ++ (textOfMoreItems (level + 1) items ++
            (breakText level ++ ']' :: rest)))) := by
        simp [text]
      rw [htext, value?_array (by rw [after?_breakText, after?_of_value? hitem])
        (by rw [items?_breakText, hitems])]
      rfl
  | object members =>
    cases members with
    | nil => rfl
    | cons member members =>
      obtain ⟨key, value⟩ := member
      simp only [text, breakText, List.length_append, List.length_cons] at hfuel
      have hmembers := members?_text key value members (level + 1) level fuel rest (by omega)
      have htext : text level (.object ((key, value) :: members)) ++ rest =
          '\x7b' :: (breakText (level + 1) ++ ((quoted key).toList ++ ':' :: ' ' ::
            (text (level + 1) value ++ (textOfMoreMembers (level + 1) members ++
              (breakText level ++ '\x7d' :: rest))))) := by
        simp [text]
      have hnone (cs : List Char) : after? '\x7d' ((quoted key).toList ++ cs) = none := by
        rw [toList_quoted_append, after?_of_ne rfl (by decide)]
      rw [htext, value?_object (by rw [after?_breakText, hnone])
        (by rw [members?_breakText, hmembers])]
      rfl
  | null => rfl
  | bool b => cases b <;> rfl
  | whole n => exact value?_whole n hrest fuel
  | real f x => exact value?_real f x hrest fuel
  | string s => exact value?_string s rest fuel
termination_by fuel

/-- Written items are read back up to the end of their list. -/
theorem items?_text (item : Json) (items : List Json) (level outer fuel : Nat) (rest : List Char)
    (hfuel : (text level item).length + (textOfMoreItems level items).length + 1 < fuel) :
    items? fuel (text level item ++ (textOfMoreItems level items ++
      (breakText outer ++ ']' :: rest))) = some (decodedItems (item :: items), rest) := by
  obtain ⟨fuel, rfl⟩ : ∃ n, fuel = n + 1 := Nat.exists_eq_add_one_of_ne_zero (by omega)
  have hitem := value?_text item level fuel _ (by omega)
    (behind_moreItems level outer items (']' :: rest))
  cases items with
  | nil =>
    have hcomma : after? ',' (breakText outer ++ ']' :: rest) = none := by
      rw [after?_breakText, after?_of_ne rfl (by decide)]
    have hend : after? ']' (breakText outer ++ ']' :: rest) = some rest := by
      rw [after?_breakText, after?_self rfl]
    simp only [textOfMoreItems, List.nil_append] at hitem ⊢
    simp only [items?, hitem, Option.bind_eq_bind, Option.bind_some, hcomma, hend, Option.map_some]
    rfl
  | cons next items =>
    simp only [textOfMoreItems, breakText, List.length_append, List.length_cons] at hfuel
    have hmore := items?_text next items level outer fuel rest (by omega)
    have htext : textOfMoreItems level (next :: items) ++ (breakText outer ++ ']' :: rest) =
        ',' :: (breakText level ++ (text level next ++ (textOfMoreItems level items ++
          (breakText outer ++ ']' :: rest)))) := by
      simp [textOfMoreItems]
    rw [htext] at hitem ⊢
    simp only [items?, hitem, Option.bind_eq_bind, Option.bind_some,
      after?_self (show isBlank ',' = false from rfl), items?_breakText, hmore, Option.map_some]
    rfl
termination_by fuel

/-- Written members are read back up to the end of their object. -/
theorem members?_text (key : String) (value : Json) (members : List (String × Json))
    (level outer fuel : Nat) (rest : List Char)
    (hfuel : (text level value).length + (textOfMoreMembers level members).length + 1 < fuel) :
    members? fuel ((quoted key).toList ++ ':' :: ' ' :: (text level value ++
      (textOfMoreMembers level members ++ (breakText outer ++ '\x7d' :: rest)))) =
        some (decodedMembers ((key, value) :: members), rest) := by
  obtain ⟨fuel, rfl⟩ : ∃ n, fuel = n + 1 := Nat.exists_eq_add_one_of_ne_zero (by omega)
  have hvalue := value?_text value level fuel _ (by omega)
    (behind_moreMembers level outer members ('\x7d' :: rest))
  have hblank : ∀ c ∈ [' '], isBlank c := by
    intro c hc
    obtain rfl := List.mem_singleton.mp hc
    rfl
  have hspace (cs : List Char) : value? fuel (' ' :: cs) = value? fuel cs :=
    value?_append hblank fuel cs
  have hcolon := after?_self (show isBlank ':' = false from rfl)
  have hquote (cs : List Char) :
      after? '"' ((quoted key).toList ++ cs) = some (key.toList.flatMap escaped ++ '"' :: cs) := by
    rw [toList_quoted_append, after?_self rfl]
  cases members with
  | nil =>
    have hcomma : after? ',' (breakText outer ++ '\x7d' :: rest) = none := by
      rw [after?_breakText, after?_of_ne rfl (by decide)]
    have hend : after? '\x7d' (breakText outer ++ '\x7d' :: rest) = some rest := by
      rw [after?_breakText, after?_self rfl]
    simp only [textOfMoreMembers, List.nil_append] at hvalue ⊢
    simp only [members?, hquote, string?_quoted, String.ofList_toList, hcolon, hspace, hvalue,
      Option.bind_eq_bind, Option.bind_some, hcomma, hend, Option.map_some]
    rfl
  | cons next members =>
    obtain ⟨key', value'⟩ := next
    simp only [textOfMoreMembers, breakText, List.length_append, List.length_cons] at hfuel
    have hmore := members?_text key' value' members level outer fuel rest (by omega)
    have htext : textOfMoreMembers level ((key', value') :: members) ++
        (breakText outer ++ '\x7d' :: rest) = ',' :: (breakText level ++ ((quoted key').toList ++
          ':' :: ' ' :: (text level value' ++ (textOfMoreMembers level members ++
            (breakText outer ++ '\x7d' :: rest))))) := by
      simp [textOfMoreMembers]
    rw [htext] at hvalue ⊢
    simp only [members?, hquote, string?_quoted, String.ofList_toList, hcolon, hspace, hvalue,
      Option.bind_eq_bind, Option.bind_some, after?_self (show isBlank ',' = false from rfl),
      members?_breakText, hmore, Option.map_some]
    rfl
termination_by fuel

end

/-- Every value that is written over several lines is read back. -/
theorem read?_lines (j : Json) : read? j.lines = some j.decoded := by
  have hread := value?_text j 0 (j.lines.length + 1) [] (by
    rw [← toList_lines, String.length_toList]
    exact Nat.lt_succ_self _) nofun
  rw [List.append_nil, ← toList_lines] at hread
  rw [read?, hread]
  rfl

/-- White characters, powers of ten, escapes, and two members of one key. -/
example : (read? " \x7b\"b\" : [7, -2.5e+1], \"a\":1, \"a\": \"\\u0041\\/\"\x7d\n").map line =
    some "\x7b\"a\":\"A/\",\"b\":[7,-25.0]\x7d" := by
  decide +kernel

end Json

end SmallC
