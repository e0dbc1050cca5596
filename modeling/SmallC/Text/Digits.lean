/-!
# Digits and the numbers they spell

Numbers are read in any base up to sixteen, with letters of either case as the
digits from ten on.
-/

namespace SmallC.Text

/-- A letter of the ASCII alphabet. -/
def isLetter (c : Char) : Bool := ('a' ≤ c && c ≤ 'z') || ('A' ≤ c && c ≤ 'Z')

/-- A decimal digit of ASCII. -/
def isDigit (c : Char) : Bool := '0' ≤ c && c ≤ '9'

/-- A character that an identifier starts with. -/
def startsIdentifier (c : Char) : Bool := isLetter c || c == '_'

/-- A character that an identifier goes on with. -/
def continuesIdentifier (c : Char) : Bool := isLetter c || isDigit c || c == '_'

/-- The value of a digit or a letter as a digit. -/
def digitValue (c : Char) : Option Nat :=
  if isDigit c then some (c.toNat - 48)
  else if 'a' ≤ c && c ≤ 'z' then some (c.toNat - 87)
  else if 'A' ≤ c && c ≤ 'Z' then some (c.toNat - 55)
  else none

/-- The number that the digits spell after a start that spells `value`. -/
def numberFrom (base value : Nat) : List Char → Option Nat
  | [] => some value
  | c :: cs =>
    match digitValue c with
    | some d => if d < base then numberFrom base (value * base + d) cs else none
    | none => none

/-- The number that a text spells in a base: digits of that base, at least one, and no
sign before them. -/
def number? (base : Nat) (cs : List Char) : Option Nat :=
  if cs.isEmpty then none else numberFrom base 0 cs

/-- The number that a text spells in a base with an optional sign before it. -/
def signed? (base : Nat) : List Char → Option Int
  | '-' :: cs => (number? base cs).map (- Int.ofNat ·)
  | '+' :: cs => (number? base cs).map Int.ofNat
  | cs => (number? base cs).map Int.ofNat

/-- The digits of a number in a base of at most sixteen, letters in lower case. -/
def hexadecimal (n : Nat) : String := String.ofList (Nat.toDigits 16 n)

end SmallC.Text
