import SmallC.Text.Digits
import SmallC.Text.Space

/-!
# The tokens of a directive

What follows the hash of a directive line is cut into identifiers, alphanumeric
runs that start with a digit, quoted texts, punctuators and other characters,
with ASCII blanks between them. A comment that starts outside quotes is dropped
before that.
-/

namespace SmallC

/-- The punctuators of directive lines. -/
inductive Punctuator where
  | ellipsis | andAnd | orOr | eqEq | bangEq | ltEq | gtEq | ltLt | gtGt
  | leftParen | rightParen | comma | bang | tilde | plus | minus | star | slash | percent
  | lt | gt | and | or | caret | question | colon
  deriving DecidableEq, Inhabited, Repr

namespace Punctuator

/-- Every punctuator, the longer ones before those they start with. -/
def all : List Punctuator :=
  [.ellipsis, .andAnd, .orOr, .eqEq, .bangEq, .ltEq, .gtEq, .ltLt, .gtGt,
    .leftParen, .rightParen, .comma, .bang, .tilde, .plus, .minus, .star, .slash, .percent,
    .lt, .gt, .and, .or, .caret, .question, .colon]

/-- The characters of a punctuator. -/
def spelling : Punctuator → List Char
  | .ellipsis => ['.', '.', '.']
  | .andAnd => ['&', '&']
  | .orOr => ['|', '|']
  | .eqEq => ['=', '=']
  | .bangEq => ['!', '=']
  | .ltEq => ['<', '=']
  | .gtEq => ['>', '=']
  | .ltLt => ['<', '<']
  | .gtGt => ['>', '>']
  | .leftParen => ['(']
  | .rightParen => [')']
  | .comma => [',']
  | .bang => ['!']
  | .tilde => ['~']
  | .plus => ['+']
  | .minus => ['-']
  | .star => ['*']
  | .slash => ['/']
  | .percent => ['%']
  | .lt => ['<']
  | .gt => ['>']
  | .and => ['&']
  | .or => ['|']
  | .caret => ['^']
  | .question => ['?']
  | .colon => [':']

/-- The longest punctuator that a text starts with. -/
def leading? (cs : List Char) : Option Punctuator := all.find? fun p => p.spelling.isPrefixOf cs

end Punctuator

/-- A token of a directive line. The text of a number is a digit with letters and digits
behind it: a sign before it is a punctuator of its own. -/
inductive DirectiveToken where
  | identifier (name : String)
  | number (text : String)
  | quoted (text : String)
  | punctuator (sign : Punctuator)
  | other (c : Char)
  deriving DecidableEq, Inhabited, Repr

namespace DirectiveToken

/-- The token as a text, a quoted text without its quotes. -/
def text : DirectiveToken → String
  | .identifier name => name
  | .number text => text
  | .quoted text => text
  | .punctuator sign => String.ofList sign.spelling
  | .other c => String.singleton c

/-- A token with its place in a line. -/
structure Placed where
  /-- How many bytes of the line are before it, in UTF-8. -/
  offset : Nat
  /-- The token. -/
  token : DirectiveToken
  /-- What follows it in the line. -/
  rest : List Char
  deriving DecidableEq, Repr

/-- The length of a text in bytes, in UTF-8. -/
def byteLength (cs : List Char) : Nat := cs.foldl (fun n c => n + c.utf8Size) 0

/-- The first token of a text and the characters that spell it, given the first
character, which is no blank, and what follows it. A quoted text ends at the next
quote of the same kind or with the line. -/
def first (c : Char) (cs : List Char) : DirectiveToken × List Char :=
  if Text.startsIdentifier c then
    let name := c :: cs.takeWhile Text.continuesIdentifier
    (.identifier (String.ofList name), name)
  else if Text.isDigit c then
    let run := c :: cs.takeWhile fun d => Text.isLetter d || Text.isDigit d
    (.number (String.ofList run), run)
  else if c = '"' ∨ c = '\'' then
    let body := cs.takeWhile (· ≠ c)
    (.quoted (String.ofList body), c :: body ++ (cs.drop body.length).take 1)
  else
    match Punctuator.leading? (c :: cs) with
    | some sign => (.punctuator sign, sign.spelling)
    | none => (.other c, [c])

/-- The tokens of a text after `offset` bytes of a line, put after the reversed
`done`. -/
def allFrom (offset : Nat) (done : List Placed) : List Char → List Placed
  | [] => done.reverse
  | c :: cs =>
    if Text.isBlank c then allFrom (offset + 1) done cs
    else
      let (token, spelling) := first c cs
      let rest := cs.drop (spelling.length - 1)
      allFrom (offset + byteLength spelling) (⟨offset, token, rest⟩ :: done) rest
termination_by cs => cs.length
decreasing_by all_goals simp; try omega

/-- The tokens of a line. -/
def all (cs : List Char) : List Placed := allFrom 0 [] cs

/-- How many characters there are before the first comment, added to `count`;
`quote` is the quote that is open. -/
def commentStart (quote : Option Char) (count : Nat) : List Char → Nat
  | [] => count
  | c :: cs =>
    match quote with
    | some q => commentStart (if c = q then none else quote) (count + 1) cs
    | none =>
      if c = '"' ∨ c = '\'' then commentStart (some c) (count + 1) cs
      else if c = '/' ∧ cs.head? = some '/' then count
      else commentStart none (count + 1) cs

/-- A line without the comment at its end. -/
def stripComment (cs : List Char) : List Char := cs.take (commentStart none 0 cs)

end DirectiveToken

end SmallC
