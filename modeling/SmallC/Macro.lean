import SmallC.Position
import SmallC.Text.Digits
import SmallC.Text.Space

/-!
# Macros

A macro is recorded with its body but never expanded. A table holds at most one
macro of each name and keeps them in the order of their names.
-/

namespace SmallC

/-- A recorded definition. -/
structure Macro where
  /-- The name. -/
  name : String
  /-- The parameters of a function macro; an object macro has none, not even an
  empty list of them. -/
  parameters : Option (List String)
  /-- The replacement text. -/
  body : String
  /-- The line of the definition. -/
  location : Location
  /-- It was defined before the first line. -/
  builtin : Bool
  deriving DecidableEq, Inhabited, Repr

namespace Macro

/-- The macro takes arguments, if only in the form of empty parentheses. -/
def isFunction (m : Macro) : Bool := m.parameters.isSome

/-- The names of the parameters, none for an object macro. -/
def parameterNames (m : Macro) : List String := m.parameters.getD []

/-- A whole number of 64 bits, if it is in their range. -/
def int64? (n : Int) : Option Int64 :=
  if Int64.minValue.toInt ≤ n ∧ n ≤ Int64.maxValue.toInt then some (Int64.ofInt n) else none

/-- The integer that a replacement text spells: decimal, or hexadecimal after
`0x`, with an optional sign before the digits. -/
def integerOf (cs : List Char) : Option Int64 :=
  match Text.trim cs with
  | '0' :: 'x' :: digits => (Text.signed? 16 digits).bind int64?
  | '0' :: 'X' :: digits => (Text.signed? 16 digits).bind int64?
  | digits => (Text.signed? 10 digits).bind int64?

/-- The integer that the body of a macro spells, if it spells one. -/
def integer? (m : Macro) : Option Int64 := integerOf m.body.toList

end Macro

/-- The defined macros. -/
structure MacroTable where
  /-- The macros, in ascending order of their names. -/
  entries : List Macro
  deriving DecidableEq, Inhabited, Repr

namespace MacroTable

/-- No macros. -/
def empty : MacroTable := ⟨[]⟩

/-- The macro of a name. -/
def get? (t : MacroTable) (name : String) : Option Macro := t.entries.find? (·.name = name)

/-- There is a macro of the name. -/
def contains (t : MacroTable) (name : String) : Bool := (t.get? name).isSome

/-- A macro among others in the order of their names, in the place of the one
with the same name if there is one. -/
def place (m : Macro) : List Macro → List Macro
  | [] => [m]
  | e :: es =>
    if m.name = e.name then m :: es
    else if m.name < e.name then m :: e :: es
    else e :: place m es

/-- The table with one more macro, which replaces the one of the same name. -/
def insert (t : MacroTable) (m : Macro) : MacroTable := ⟨place m t.entries⟩

/-- The table without the macro of a name. -/
def erase (t : MacroTable) (name : String) : MacroTable := ⟨t.entries.filter (·.name ≠ name)⟩

/-- The number of macros. -/
def size (t : MacroTable) : Nat := t.entries.length

/-- The macros that were defined by a line. -/
def userDefined (t : MacroTable) : List Macro := t.entries.filter (!·.builtin)

/-- A macro that was put among others is found by its name. -/
theorem find?_place_self (m : Macro) (es : List Macro) :
    (place m es).find? (·.name = m.name) = some m := by
  induction es with
  | nil => simp [place]
  | cons e es ih =>
    simp only [place]
    split
    · simp
    · split
      · simp
      · rename_i hne _
        simp [Ne.symm hne, ih]

/-- A macro that is put among others changes nothing for other names. -/
theorem find?_place_of_ne {m : Macro} {name : String} (h : m.name ≠ name) (es : List Macro) :
    (place m es).find? (·.name = name) = es.find? (·.name = name) := by
  induction es with
  | nil => simp [place, h]
  | cons e es ih =>
    simp only [place]
    split
    · rename_i heq
      simp [h, ← heq]
    · split
      · simp [h]
      · simp [List.find?_cons, ih]

/-- A macro is found under its name once it is inserted. -/
@[simp] theorem get?_insert_self (t : MacroTable) (m : Macro) :
    (t.insert m).get? m.name = some m :=
  find?_place_self m t.entries

/-- Inserting a macro changes no other name. -/
theorem get?_insert_of_ne (t : MacroTable) {m : Macro} {name : String} (h : m.name ≠ name) :
    (t.insert m).get? name = t.get? name :=
  find?_place_of_ne h t.entries

/-- An erased name has no macro. -/
@[simp] theorem get?_erase_self (t : MacroTable) (name : String) :
    (t.erase name).get? name = none := by
  simp [get?, erase]

/-- Erasing a name changes no other. -/
theorem get?_erase_of_ne (t : MacroTable) {name other : String} (h : other ≠ name) :
    (t.erase name).get? other = t.get? other := by
  unfold get? erase
  induction t.entries with
  | nil => rfl
  | cons e es ih =>
    by_cases hname : e.name = name
    · have hother : e.name ≠ other := fun heq => h (heq ▸ hname)
      simpa [List.filter_cons, List.find?_cons, hname, Ne.symm h] using ih
    · by_cases hother : e.name = other <;>
        simp_all

end MacroTable

end SmallC
