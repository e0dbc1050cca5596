import SmallC.Diagnostic
import SmallC.Text.Digits

/-!
# The segments of a text

A text is cut from left to right into segments. A segment is a gap (one white
character or a comment), the spelling of a token, or a fault, and every segment
has at least one character, so that the cutting always ends.
-/

namespace SmallC

/-- What a segment contributes. -/
inductive Piece where
  | gap
  | token (kind : TokenKind) (lexeme : List Char) (literal : Option Literal)
  | fault (fault : SpellingFault)
  deriving DecidableEq, Repr

/-- A stretch of a text and what it contributes. -/
structure Segment where
  /-- The characters. -/
  text : List Char
  /-- The contribution. -/
  piece : Piece
  deriving DecidableEq, Repr

namespace Segment

/-- The white characters between tokens. -/
def isGap (c : Char) : Bool := c == ' ' || c == '\t' || c == '\r' || c == '\n' || c == '\x00'

/-- The code that a letter stands for after a backslash. -/
def escapeCode? : Char → Option UInt64
  | 'n' => some 10
  | 't' => some 9
  | 'r' => some 13
  | '0' => some 0
  | '\\' => some 92
  | '\'' => some 39
  | '"' => some 34
  | _ => none

/-- The segment of a token that is spelled by all its characters. -/
def whole (kind : TokenKind) (literal : Option Literal) (text : List Char) : Segment :=
  ⟨text, .token kind text literal⟩

/-- A string from its opening quote to the next one, or to the end of the text,
given what follows the opening quote. -/
def string (cs : List Char) : Segment :=
  let body := cs.takeWhile (· ≠ '"')
  match cs.drop body.length with
  | [] => ⟨'"' :: body, .fault .unterminatedString⟩
  | _ => ⟨'"' :: body ++ ['"'], .token .string body none⟩

/-- The end of a character constant whose opening quote and character are
`start` and whose code is `code`, given what follows the character. Where there
is no closing quote the rest of the line up to a quote is skipped. -/
def closing (start : List Char) (code : UInt64) : List Char → Segment
  | [] => ⟨start, .fault .unterminatedCharacter⟩
  | '\'' :: _ => whole .character (some (.whole code)) (start ++ ['\''])
  | '\n' :: _ => ⟨start, .fault .unterminatedCharacter⟩
  | cs =>
    let skipped := cs.takeWhile fun c => c ≠ '\'' && c ≠ '\n'
    let quote := (cs.drop skipped.length).take 1
    ⟨start ++ skipped ++ (if quote = ['\''] then quote else []), .fault .severalCharacters⟩

/-- A character constant, given what follows its opening quote. -/
def character : List Char → Segment
  | [] => ⟨['\''], .fault .unterminatedCharacter⟩
  | '\n' :: _ => ⟨['\''], .fault .unterminatedCharacter⟩
  | '\'' :: _ => ⟨['\'', '\''], .fault .emptyCharacter⟩
  | ['\\'] => ⟨['\'', '\\'], .fault .unterminatedCharacter⟩
  | '\\' :: '\n' :: _ => ⟨['\'', '\\'], .fault .unterminatedCharacter⟩
  | '\\' :: c :: cs =>
    match escapeCode? c with
    | some code => closing ['\'', '\\', c] code cs
    | none => ⟨['\'', '\\', c], .fault (.unknownEscape c)⟩
  | c :: cs => closing ['\'', c] (UInt64.ofNat c.toNat) cs

/-- A number without a point: its value has to fit into 64 bits. -/
def wholeNumber (digits : List Char) : Segment :=
  match Text.number? 10 digits with
  | some n =>
    if n < UInt64.size then whole .number (some (.whole (UInt64.ofNat n))) digits
    else ⟨digits, .fault (.unreadableNumber (String.ofList digits))⟩
  | none => ⟨digits, .fault (.unreadableNumber (String.ofList digits))⟩

/-- A number with a point, given the digits before and after it: its value is
the nearest one in double precision. -/
def fractionalNumber (digits places : List Char) : Segment :=
  let value := (Text.number? 10 (digits ++ places)).getD 0
  let x := Binary.double.round false value (Nat.pow 10 places.length)
  whole .fractional (some (.fractional x)) (digits ++ '.' :: places)

/-- A number, given its first digit and what follows it. -/
def number (c : Char) (cs : List Char) : Segment :=
  let digits := cs.takeWhile Text.isDigit
  match cs.drop digits.length with
  | '.' :: rest => fractionalNumber (c :: digits) (rest.takeWhile Text.isDigit)
  | _ => wholeNumber (c :: digits)

/-- An identifier or a reserved word, given its first character and what follows
it. -/
def word (c : Char) (cs : List Char) : Segment :=
  let text := c :: cs.takeWhile Text.continuesIdentifier
  match Keyword.ofText? (String.ofList text) with
  | some k => whole (.keyword k) none text
  | none => whole .identifier none text

/-- A symbol, given its first character and what follows it; an equals sign
belongs to a symbol that it can belong to. -/
def symbol (c : Char) (sign : Symbol) (cs : List Char) : Segment :=
  match sign.withEquals?, cs with
  | some longer, '=' :: _ => whole (.symbol longer) none [c, '=']
  | _, _ => whole (.symbol sign) none [c]

/-- The first segment of a text, given its first character and what follows. -/
def first (c : Char) (cs : List Char) : Segment :=
  if isGap c then ⟨[c], .gap⟩
  else if c = '/' ∧ cs.head? = some '/' then ⟨c :: cs.takeWhile (· ≠ '\n'), .gap⟩
  else if c = '"' then string cs
  else if c = '\'' then character cs
  else if Text.isDigit c then number c cs
  else if Text.startsIdentifier c then word c cs
  else
    match Symbol.ofChar? c with
    | some sign => symbol c sign cs
    | none => ⟨[c], .fault (.unexpectedCharacter c)⟩

/-- The segments of a text, put after the reversed `done`. -/
def allFrom (done : List Segment) : List Char → List Segment
  | [] => done.reverse
  | c :: cs =>
    let s := first c cs
    allFrom (s :: done) (cs.drop (s.text.length - 1))
termination_by cs => cs.length
decreasing_by simp only [List.length_drop, List.length_cons]; omega

/-- The segments of a text. -/
def all (cs : List Char) : List Segment := allFrom [] cs

end Segment

end SmallC
