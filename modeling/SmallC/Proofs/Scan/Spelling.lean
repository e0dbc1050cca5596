import Mathlib.Data.Nat.Digits.Defs
import SmallC.Proofs.Scan.Places
import SmallC.Proofs.Text.Words

/-!
# Spellings of tokens

A token may be spelled by any text of its class. Whichever it is, the scanner cuts it off as
a whole, if what comes behind it does not go on with it: a white character ends every token,
and so does a comment, but behind a slash.
-/

namespace SmallC

/-- The number that decimal digits spell. -/
def Text.decimal (digits : List Char) : Nat :=
  Nat.ofDigits 10 (digits.reverse.map fun d => d.toNat - '0'.toNat)

/-- The white characters. -/
def whites : List Char := [' ', '\t', '\r', '\n', '\x00']

/-- The letters that stand for a code behind a backslash. -/
def escapes : List (Char × Nat) :=
  [('n', 10), ('t', 9), ('r', 13), ('0', 0), ('\\', 92), ('\'', 39), ('"', 34)]

/-- A well-formed spelling of a token. -/
inductive Spelling where
  /-- An identifier or a reserved word. -/
  | word (c : Char) (cs : List Char) (hc : Text.startsIdentifier c)
    (hcs : ∀ d ∈ cs, Text.continuesIdentifier d)
  /-- Digits that spell a number of 64 bits. -/
  | whole (digits : List Char) (hne : digits ≠ []) (hdigits : ∀ d ∈ digits, Text.isDigit d)
    (hvalue : Text.decimal digits < 2 ^ 64)
  /-- Digits and a point, perhaps with more digits behind it. -/
  | fractional (digits places : List Char) (hne : digits ≠ [])
    (hdigits : ∀ d ∈ digits, Text.isDigit d) (hplaces : ∀ d ∈ places, Text.isDigit d)
  /-- Characters between quotes. -/
  | string (body : List Char) (hbody : '"' ∉ body)
  /-- A character between single quotes. -/
  | character (c : Char) (hc : c ∉ ['\'', '\\', '\n'])
  /-- A backslash and a letter between single quotes. -/
  | escape (letter : Char) (code : Nat) (hletter : (letter, code) ∈ escapes)
  /-- An operator or a punctuation mark. -/
  | symbol (sign : Symbol)

namespace Spelling

/-- The characters of a spelling. -/
def text : Spelling → List Char
  | word c cs _ _ => c :: cs
  | whole digits _ _ _ => digits
  | fractional digits places _ _ _ => digits ++ '.' :: places
  | string body _ => '"' :: body ++ ['"']
  | character c _ => ['\'', c, '\'']
  | escape letter _ _ => ['\'', '\\', letter, '\'']
  | symbol sign => sign.spelling.toList

/-- The kind of the token that is spelled. -/
def kind : Spelling → TokenKind
  | word c cs _ _ => ((Keyword.ofText? (String.ofList (c :: cs))).map .keyword).getD .identifier
  | whole .. => .number
  | fractional .. => .fractional
  | string .. => .string
  | character .. => .character
  | escape .. => .character
  | symbol sign => .symbol sign

/-- The lexeme of the token that is spelled, which for a string is what stands between the
quotes. -/
def lexeme : Spelling → List Char
  | string body _ => body
  | s => s.text

/-- The value of the token that is spelled, if it has one. -/
def literal : Spelling → Option Literal
  | whole digits _ _ _ => some (.whole (UInt64.ofNat (Text.decimal digits)))
  | fractional digits places _ _ _ =>
    some (.fractional
      (Binary.double.round false (Text.decimal (digits ++ places)) (Nat.pow 10 places.length)))
  | character c _ => some (.whole (UInt64.ofNat c.toNat))
  | escape _ code _ => some (.whole (UInt64.ofNat code))
  | _ => none

/-- What the spelling contributes to a text. -/
def piece (s : Spelling) : Piece := .token s.kind s.lexeme s.literal

/-- What comes behind a spelling does not go on with it: there is a white character, or a
comment that is not behind a slash, or nothing. -/
def Parted (s : Spelling) (rest : List Char) : Prop :=
  ∀ d ∈ rest.head?, d ∈ whites ∨ d = '/' ∧ s ≠ .symbol .slash

end Spelling

namespace Text

end Text

namespace Segment

variable {c : Char} {cs rest : List Char}

/-! ## The first segment -/

/-- A text starts with a segment, and goes on behind it. -/
def Cuts (text rest : List Char) (piece : Piece) : Prop :=
  ∃ c cs, text = c :: cs ∧ first c (cs ++ rest) = ⟨text, piece⟩

end Segment

end SmallC
