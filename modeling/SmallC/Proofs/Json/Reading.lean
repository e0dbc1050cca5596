import Mathlib.Data.Rat.Defs
import SmallC.Json
import SmallC.Proofs.Text.Digits
import SmallC.Proofs.Text.Stretches

/-!
# Reading JSON

A JSON text spells a value, with white characters between any two of its parts. A number with
neither a fraction nor a power of ten is whole, and any other number is the nearest value in double
precision. The members of an object are kept in the order of their keys, and of several members
with one key the last one counts. Strings and numbers are read here as they are written.
-/

namespace SmallC

/-- The value of the format that is nearest to a decimal, whichever fraction it is given by. -/
def Binary.Format.nearest (f : Format) (negative : Bool) (d : Decimal) : Binary :=
  let q := mkRat d.ratio.1 d.ratio.2
  f.round negative q.num.natAbs q.den

namespace Json

variable {cs rest : List Char}

/-! ## White characters -/

/-- The white characters between the parts of a text. -/
def isBlank (c : Char) : Bool := c = ' ' || c = '\n' || c = '\r' || c = '\t'

/-- What comes behind the white characters at the start of a text. -/
def skipBlank (cs : List Char) : List Char := cs.dropWhile isBlank

/-- What comes behind a character, if a text starts with it, perhaps behind white characters. -/
def after? (c : Char) (cs : List Char) : Option (List Char) :=
  match skipBlank cs with
  | [] => none
  | d :: cs => if d = c then some cs else none

/-! ## Numbers -/

/-- A number as it is written. -/
structure Numeral where
  /-- There is a minus sign. -/
  negative : Bool
  /-- The digits before the point. -/
  digits : List Char
  /-- The digits behind the point, if there is one. -/
  places : List Char
  /-- The power of ten with its sign, if there is one. -/
  power : List Char

/-- The digits that a text starts with, at least one, and what comes behind them. -/
def digits? (cs : List Char) : Option (List Char × List Char) :=
  let digits := cs.takeWhile Text.isDigit
  if digits = [] then none else some (digits, cs.drop digits.length)

/-- The digits before a point: more than one of them do not start with a zero. -/
def whole? (cs : List Char) : Option (List Char × List Char) :=
  match digits? cs with
  | some ('0' :: _ :: _, _) => none
  | read => read

/-- The digits behind a point, if there is a point. -/
def places? : List Char → Option (List Char × List Char)
  | '.' :: cs => digits? cs
  | cs => some ([], cs)

/-- Digits with a sign, if there is a sign. -/
def signedDigits? : List Char → Option (List Char × List Char)
  | '-' :: cs => (digits? cs).map fun (digits, rest) => ('-' :: digits, rest)
  | '+' :: cs => (digits? cs).map fun (digits, rest) => ('+' :: digits, rest)
  | cs => digits? cs

/-- A power of ten with its sign, if there is a power of ten. -/
def power? : List Char → Option (List Char × List Char)
  | [] => some ([], [])
  | c :: cs => if c = 'e' ∨ c = 'E' then signedDigits? cs else some ([], c :: cs)

/-- The number behind its sign, and what comes behind it. -/
def unsigned? (negative : Bool) (cs : List Char) : Option (Numeral × List Char) := do
  let (digits, cs) ← whole? cs
  let (places, cs) ← places? cs
  let (power, cs) ← power? cs
  some (⟨negative, digits, places, power⟩, cs)

/-- The number that a text starts with, and what comes behind it. -/
def numeral? : List Char → Option (Numeral × List Char)
  | '-' :: cs => unsigned? true cs
  | cs => unsigned? false cs

namespace Numeral

/-- The characters of a number. -/
def text (n : Numeral) : List Char :=
  (if n.negative then ['-'] else []) ++ n.digits ++
    (if n.places = [] then [] else '.' :: n.places) ++ if n.power = [] then [] else 'e' :: n.power

/-- The value of a number. -/
def value (n : Numeral) : Json :=
  let digits := (Text.number? 10 (n.digits ++ n.places)).getD 0
  if n.places = [] ∧ n.power = [] then .whole (if n.negative then -digits else digits)
  else
    let exponent := (Text.signed? 10 n.power).getD 0 - n.places.length
    .real Binary.double (Binary.double.nearest n.negative ⟨digits, exponent⟩)

/-- The parts of a number are as they have to be. -/
structure WellFormed (n : Numeral) : Prop where
  nonempty : n.digits ≠ []
  digits : ∀ d ∈ n.digits, Text.isDigit d
  leading : ∀ d ds, n.digits ≠ '0' :: d :: ds
  places : ∀ d ∈ n.places, Text.isDigit d
  power : n.power = [] ∨ ∃ sign ds, n.power = sign :: ds ∧ sign ∈ ['-', '+'] ∧ ds ≠ [] ∧
    ∀ d ∈ ds, Text.isDigit d

/-- What comes behind a number does not go on with it. -/
def Parted (rest : List Char) : Prop :=
  ∀ d ∈ rest.head?, Text.isDigit d = false ∧ d ≠ '.' ∧ d ≠ 'e' ∧ d ≠ 'E'

end Numeral

/-- Digits are read up to the first character that is none. -/
theorem digits?_append {digits : List Char} (hne : digits ≠ [])
    (hdigits : ∀ d ∈ digits, Text.isDigit d) (hrest : ∀ d ∈ rest.head?, Text.isDigit d = false) :
    digits? (digits ++ rest) = some (digits, rest) := by
  rw [digits?, Text.takeWhile_append_of_ends hdigits hrest]
  simp [hne]

/-- The whole part of a number is read to its end, if it has no zero to spare in front. -/
theorem whole?_append {digits : List Char} (hne : digits ≠ [])
    (hdigits : ∀ d ∈ digits, Text.isDigit d) (hleading : ∀ d ds, digits ≠ '0' :: d :: ds)
    (hrest : ∀ d ∈ rest.head?, Text.isDigit d = false) :
    whole? (digits ++ rest) = some (digits, rest) := by
  rw [whole?, digits?_append hne hdigits hrest]
  split
  · rename_i heq
    cases heq
    exact absurd rfl (hleading _ _)
  · rfl

/-- The places behind the point are read to their end, and so are none. -/
theorem places?_append {places : List Char} (hplaces : ∀ d ∈ places, Text.isDigit d)
    (hrest : ∀ d ∈ rest.head?, Text.isDigit d = false ∧ d ≠ '.') :
    places? ((if places = [] then [] else '.' :: places) ++ rest) = some (places, rest) := by
  by_cases hnone : places = []
  · subst hnone
    rw [if_pos rfl, List.nil_append]
    unfold places?
    split
    · exact absurd rfl (hrest '.' rfl).2
    · rfl
  · rw [if_neg hnone]
    exact digits?_append hnone hplaces fun d hd => (hrest d hd).1

/-- The power of ten is read to its end, and so is none. -/
theorem power?_append {power : List Char}
    (hpower : power = [] ∨ ∃ sign ds, power = sign :: ds ∧ sign ∈ ['-', '+'] ∧ ds ≠ [] ∧
      ∀ d ∈ ds, Text.isDigit d)
    (hrest : ∀ d ∈ rest.head?, Text.isDigit d = false ∧ d ≠ 'e' ∧ d ≠ 'E') :
    power? ((if power = [] then [] else 'e' :: power) ++ rest) = some (power, rest) := by
  obtain rfl | ⟨sign, ds, rfl, hsign, hne, hds⟩ := hpower
  · rw [if_pos rfl, List.nil_append]
    cases rest with
    | nil => rfl
    | cons d rest => rw [power?, if_neg (by simpa using (hrest d rfl).2)]
  · have hdigits := digits?_append hne hds fun d hd => (hrest d hd).1
    have hsigned : signedDigits? (sign :: (ds ++ rest)) = some (sign :: ds, rest) := by
      simp only [List.mem_cons, List.not_mem_nil, or_false] at hsign
      rcases hsign with rfl | rfl <;> rw [signedDigits?, hdigits] <;> rfl
    rw [if_neg (List.cons_ne_nil sign ds), List.cons_append, List.cons_append, power?,
      if_pos (.inl rfl), hsigned]

/-- A number is read as it is written, if what comes behind it does not go on with it. -/
theorem numeral?_text {n : Numeral} (h : n.WellFormed) (hrest : Numeral.Parted rest) :
    numeral? (n.text ++ rest) = some (n, rest) := by
  obtain ⟨negative, digits, places, power⟩ := n
  have hpower := power?_append h.power fun d hd =>
    ⟨(hrest d hd).1, (hrest d hd).2.2⟩
  have hbehind : ∀ d ∈ ((if power = [] then [] else 'e' :: power) ++ rest).head?,
      Text.isDigit d = false ∧ d ≠ '.' := by
    intro d hd
    split at hd
    · exact ⟨(hrest d hd).1, (hrest d hd).2.1⟩
    · obtain rfl : 'e' = d := by simpa using hd
      decide
  have hplaces := places?_append h.places hbehind
  have hpoint : ∀ d ∈ ((if places = [] then [] else '.' :: places) ++
      ((if power = [] then [] else 'e' :: power) ++ rest)).head?, Text.isDigit d = false := by
    intro d hd
    split at hd
    · exact (hbehind d hd).1
    · obtain rfl : '.' = d := by simpa using hd
      rfl
  have hdigits := whole?_append h.nonempty h.digits h.leading hpoint
  have hunsigned : unsigned? negative (digits ++ ((if places = [] then [] else '.' :: places) ++
      ((if power = [] then [] else 'e' :: power) ++ rest))) =
      some (⟨negative, digits, places, power⟩, rest) := by
    simp only [unsigned?, hdigits, hplaces, hpower, Option.bind_eq_bind, Option.bind_some]
  have htext : Numeral.text ⟨negative, digits, places, power⟩ ++ rest =
      (if negative then ['-'] else []) ++ (digits ++ ((if places = [] then [] else '.' :: places) ++
        ((if power = [] then [] else 'e' :: power) ++ rest))) := by
    simp [Numeral.text]
  rw [htext]
  cases negative with
  | true => exact hunsigned
  | false =>
    obtain ⟨d, ds, rfl⟩ := List.exists_cons_of_ne_nil h.nonempty
    have hd : Text.isDigit d := h.digits d List.mem_cons_self
    rw [← hunsigned]
    unfold numeral?
    split
    · rename_i heq
      obtain ⟨rfl, -⟩ := List.cons.inj heq
      cases hd
    · rfl

/-! ## Strings -/

/-- The character that a letter or a sign behind a backslash stands for. -/
def escape? : Char → Option Char
  | '"' => some '"'
  | '\\' => some '\\'
  | '/' => some '/'
  | 'b' => some '\x08'
  | 'f' => some '\x0c'
  | 'n' => some '\n'
  | 'r' => some '\r'
  | 't' => some '\t'
  | _ => none

/-- The number that four hexadecimal digits spell, and what comes behind them. -/
def codeUnit? : List Char → Option (Nat × List Char)
  | a :: b :: c :: d :: cs => (Text.number? 16 [a, b, c, d]).map fun unit => (unit, cs)
  | _ => none

/-- The character that a code stands for, which is given in hexadecimal digits; for a code of more
than 16 bits there are two halves of it. -/
def coded? (cs : List Char) : Option (Char × List Char) := do
  let (unit, cs) ← codeUnit? cs
  if unit < 0xD800 ∨ 0xE000 ≤ unit then some (Char.ofNat unit, cs)
  else
    match cs with
    | '\\' :: 'u' :: cs => do
      let (half, cs) ← codeUnit? cs
      if unit < 0xDC00 ∧ 0xDC00 ≤ half ∧ half < 0xE000 then
        some (Char.ofNat (0x10000 + (unit - 0xD800) * 0x400 + (half - 0xDC00)), cs)
      else none
    | _ => none

/-- The first character of a string that is not at its end, and what comes behind it. -/
def character? : List Char → Option (Char × List Char)
  | [] => none
  | '\\' :: 'u' :: cs => coded? cs
  | '\\' :: c :: cs => (escape? c).map fun c => (c, cs)
  | c :: cs => if c.toNat < 0x20 ∨ c = '\\' then none else some (c, cs)

/-- A code unit takes some characters. -/
theorem length_codeUnit? {unit : Nat} (h : codeUnit? cs = some (unit, rest)) :
    rest.length < cs.length := by
  unfold codeUnit? at h
  split at h
  · obtain ⟨n, -, hn⟩ := Option.map_eq_some_iff.mp h
    cases hn
    simp
    omega
  · cases h

/-- A coded character takes some characters. -/
theorem length_coded? {c : Char} (h : coded? cs = some (c, rest)) : rest.length < cs.length := by
  obtain ⟨⟨unit, behind⟩, hunit, h⟩ := Option.bind_eq_some_iff.mp h
  have hbehind := length_codeUnit? hunit
  dsimp only at h
  split at h
  · cases h
    exact hbehind
  split at h
  · obtain ⟨⟨half, behind'⟩, hhalf, h⟩ := Option.bind_eq_some_iff.mp h
    have hbehind' := length_codeUnit? hhalf
    dsimp only at h
    split at h
    · obtain ⟨-, rfl⟩ := Prod.mk.inj (Option.some.inj h)
      simp only [List.length_cons] at hbehind
      omega
    · cases h
  · cases h

/-- A character of a string takes some characters of the text. -/
theorem length_character? {c : Char} (h : character? cs = some (c, rest)) :
    rest.length < cs.length := by
  unfold character? at h
  split at h
  · cases h
  · have hbehind := length_coded? h
    simp only [List.length_cons]
    omega
  · obtain ⟨d, -, hd⟩ := Option.map_eq_some_iff.mp h
    cases hd
    simp only [List.length_cons]
    omega
  · split at h
    · cases h
    · obtain ⟨-, rfl⟩ := Prod.mk.inj (Option.some.inj h)
      exact Nat.lt_succ_self _

/-- The characters of a string up to its closing quote, and what comes behind it. -/
def string? (cs : List Char) : Option (List Char × List Char) :=
  match cs with
  | '"' :: rest => some ([], rest)
  | cs =>
    match _h : character? cs with
    | none => none
    | some (c, rest) => (string? rest).map fun (s, rest) => (c :: s, rest)
termination_by cs.length
decreasing_by exact length_character? _h

/-- A control character is read from its code. -/
theorem coded?_controlEscape {c : Char} (hc : c.toNat < 0x20) (rest : List Char) :
    character? (controlEscape c ++ rest) = some (c, rest) := by
  have hhigh := Text.digitValue_digitChar (c.toNat / 16) (by omega)
  have hlow := Text.digitValue_digitChar (c.toNat % 16) (by omega)
  have hzero : Text.digitValue '0' = some 0 := by decide
  have hunit : Text.number? 16
      ['0', '0', Nat.digitChar (c.toNat / 16), Nat.digitChar (c.toNat % 16)] = some c.toNat := by
    have hhigh' : c.toNat / 16 < 16 := by omega
    have hlow' : c.toNat % 16 < 16 := by omega
    have hsum : c.toNat / 16 * 16 + c.toNat % 16 = c.toNat := by omega
    simp [Text.number?, Text.numberFrom, hzero, hhigh, hlow, hhigh', hlow', hsum]
  have hsmall : c.toNat < 0xD800 ∨ 0xE000 ≤ c.toNat := .inl (by omega)
  simp only [controlEscape, List.cons_append, List.nil_append, character?, coded?, codeUnit?, hunit,
    Option.map_some, Option.bind_eq_bind, Option.bind_some, hsmall, if_true, Char.ofNat_toNat]

/-- A character is read back as it was written, escaped or not. -/
theorem character?_escaped (c : Char) (rest : List Char) :
    character? (escaped c ++ rest) = some (c, rest) := by
  unfold escaped
  split
  · rename_i hc
    rcases hc with rfl | rfl <;> rfl
  split
  · subst_vars; rfl
  split
  · subst_vars; rfl
  split
  · subst_vars; rfl
  split
  · subst_vars; rfl
  split
  · subst_vars; rfl
  split
  · rename_i hc
    exact coded?_controlEscape hc rest
  · rename_i hsign _ _ _ _ _ hcontrol
    have hplain : ¬ (c.toNat < 0x20 ∨ c = '\\') := by
      rintro (hc | hc)
      · exact hcontrol hc
      · exact hsign (.inr hc)
    rw [List.singleton_append, character?, if_neg hplain]
    · rintro cs rfl
      exact absurd (.inr rfl) hplain
    · rintro d cs rfl
      exact absurd (.inr rfl) hplain

/-- No escaped character starts with the quote. -/
theorem escaped_append_ne (c : Char) (cs rest : List Char) : escaped c ++ cs ≠ '"' :: rest := by
  intro h
  have hread := congrArg character? h
  have hquote : character? ('"' :: rest) = some ('"', rest) := rfl
  rw [character?_escaped, hquote] at hread
  obtain ⟨rfl, -⟩ := Prod.mk.inj (Option.some.inj hread)
  cases h

/-- A string is read as it is written. -/
theorem string?_quoted (s rest : List Char) :
    string? (s.flatMap escaped ++ '"' :: rest) = some (s, rest) := by
  induction s with
  | nil => rw [List.flatMap_nil, List.nil_append, string?]
  | cons c s ih =>
    have hcharacter := character?_escaped c (s.flatMap escaped ++ '"' :: rest)
    rw [List.flatMap_cons, List.append_assoc]
    unfold string?
    split
    · rename_i heq
      exact absurd heq (escaped_append_ne c _ _)
    · split
      · rename_i hnone
        rw [hcharacter] at hnone
        cases hnone
      · rename_i hsome
        rw [hcharacter] at hsome
        cases hsome
        rw [ih]
        rfl

/-! ## Values -/

/-- Members in the order of their keys with one more, in the place of the one of its key if there
is one. -/
def insert (key : String) (value : Json) : List (String × Json) → List (String × Json)
  | [] => [(key, value)]
  | (k, v) :: rest =>
    if key = k then (key, value) :: rest
    else if key < k then (key, value) :: (k, v) :: rest
    else (k, v) :: insert key value rest

/-- Members in the order of their keys. -/
def ordered (members : List (String × Json)) : List (String × Json) :=
  members.foldl (fun done (key, value) => insert key value done) []

mutual

/-- The value that a text starts with, and what comes behind it. There are less than `fuel` values
and members in it. -/
def value? : Nat → List Char → Option (Json × List Char)
  | 0, _ => none
  | fuel + 1, cs =>
    match skipBlank cs with
    | 'n' :: 'u' :: 'l' :: 'l' :: rest => some (.null, rest)
    | 't' :: 'r' :: 'u' :: 'e' :: rest => some (.bool true, rest)
    | 'f' :: 'a' :: 'l' :: 's' :: 'e' :: rest => some (.bool false, rest)
    | '"' :: cs => (string? cs).map fun (s, rest) => (.string (String.ofList s), rest)
    | '[' :: cs =>
      match after? ']' cs with
      | some rest => some (.array [], rest)
      | none => (items? fuel cs).map fun (items, rest) => (.array items, rest)
    | '\x7b' :: cs =>
      match after? '\x7d' cs with
      | some rest => some (.object [], rest)
      | none => (members? fuel cs).map fun (members, rest) => (.object (ordered members), rest)
    | cs => (numeral? cs).map fun (n, rest) => (n.value, rest)

/-- The items up to the end of a list, at least one, and what comes behind them. -/
def items? : Nat → List Char → Option (List Json × List Char)
  | 0, _ => none
  | fuel + 1, cs => do
    let (item, cs) ← value? fuel cs
    match after? ',' cs with
    | some cs => (items? fuel cs).map fun (items, rest) => (item :: items, rest)
    | none => (after? ']' cs).map fun rest => ([item], rest)

/-- The members up to the end of an object, at least one, and what comes behind them. -/
def members? : Nat → List Char → Option (List (String × Json) × List Char)
  | 0, _ => none
  | fuel + 1, cs => do
    let (key, cs) ← string? (← after? '"' cs)
    let (value, cs) ← value? fuel (← after? ':' cs)
    match after? ',' cs with
    | some cs =>
      (members? fuel cs).map fun (members, rest) => ((String.ofList key, value) :: members, rest)
    | none => (after? '\x7d' cs).map fun rest => ([(String.ofList key, value)], rest)

end

/-- The value that a text spells. -/
def read? (text : String) : Option Json :=
  (value? (text.length + 1) text.toList).bind fun (j, rest) =>
    if skipBlank rest = [] then some j else none

end Json

end SmallC
