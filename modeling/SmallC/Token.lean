import SmallC.Position
import SmallC.Decimal

/-!
# Tokens

A token is a keyword, a symbol, an identifier or a constant, with the text it
was spelled by, its value if it is a number or a character, and its position.
-/

namespace SmallC

/-- The reserved words. -/
inductive Keyword where
  | int | short | char | bool | float | void | signed | unsigned | static | const
  | return | if | else | for | while | true | false | null | asm
  deriving DecidableEq, Inhabited, Repr

namespace Keyword

/-- Every reserved word. -/
def all : List Keyword :=
  [.int, .short, .char, .bool, .float, .void, .signed, .unsigned, .static, .const,
    .return, .if, .else, .for, .while, .true, .false, .null, .asm]

/-- The word itself. -/
def spelling : Keyword → String
  | .int => "int"
  | .short => "short"
  | .char => "char"
  | .bool => "bool"
  | .float => "float"
  | .void => "void"
  | .signed => "signed"
  | .unsigned => "unsigned"
  | .static => "static"
  | .const => "const"
  | .return => "return"
  | .if => "if"
  | .else => "else"
  | .for => "for"
  | .while => "while"
  | .true => "true"
  | .false => "false"
  | .null => "null"
  | .asm => "__asm__"

/-- The name of the word in the listing of tokens. -/
def label : Keyword → String
  | .int => "KwInt"
  | .short => "KwShort"
  | .char => "KwChar"
  | .bool => "KwBool"
  | .float => "KwFloat"
  | .void => "KwVoid"
  | .signed => "KwSigned"
  | .unsigned => "KwUnsigned"
  | .static => "KwStatic"
  | .const => "KwConst"
  | .return => "KwReturn"
  | .if => "KwIf"
  | .else => "KwElse"
  | .for => "KwFor"
  | .while => "KwWhile"
  | .true => "KwTrue"
  | .false => "KwFalse"
  | .null => "KwNull"
  | .asm => "KwAsm"

/-- The reserved word that a text is. -/
def ofText? (s : String) : Option Keyword := all.find? fun k => k.spelling = s

/-- The list has every keyword. -/
theorem mem_all (k : Keyword) : k ∈ all := by cases k <;> decide

/-- Keywords are told apart by their spellings. -/
theorem spelling_injective {j k : Keyword} (h : j.spelling = k.spelling) : j = k := by
  cases j <;> cases k <;> first | rfl | exact absurd h (by decide)

end Keyword

/-- The operators and the punctuation. -/
inductive Symbol where
  | plus | minus | star | slash | percent | bang | bangEq | eq | eqEq | lt | ltEq | gt | gtEq
  | dot | comma | semi | leftParen | rightParen | leftBracket | rightBracket | leftBrace
  | rightBrace
  deriving DecidableEq, Inhabited, Repr

namespace Symbol

/-- Every symbol. -/
def all : List Symbol :=
  [.plus, .minus, .star, .slash, .percent, .bang, .bangEq, .eq, .eqEq, .lt, .ltEq, .gt, .gtEq,
    .dot, .comma, .semi, .leftParen, .rightParen, .leftBracket, .rightBracket, .leftBrace,
    .rightBrace]

/-- The characters of a symbol. -/
def spelling : Symbol → String
  | .plus => "+"
  | .minus => "-"
  | .star => "*"
  | .slash => "/"
  | .percent => "%"
  | .bang => "!"
  | .bangEq => "!="
  | .eq => "="
  | .eqEq => "=="
  | .lt => "<"
  | .ltEq => "<="
  | .gt => ">"
  | .gtEq => ">="
  | .dot => "."
  | .comma => ","
  | .semi => ";"
  | .leftParen => "("
  | .rightParen => ")"
  | .leftBracket => "["
  | .rightBracket => "]"
  | .leftBrace => "\x7b"
  | .rightBrace => "\x7d"

/-- The name of a symbol in the listing of tokens. -/
def label : Symbol → String
  | .plus => "Plus"
  | .minus => "Minus"
  | .star => "Star"
  | .slash => "Slash"
  | .percent => "Percent"
  | .bang => "Bang"
  | .bangEq => "BangEq"
  | .eq => "Eq"
  | .eqEq => "EqEq"
  | .lt => "Lt"
  | .ltEq => "LtEq"
  | .gt => "Gt"
  | .gtEq => "GtEq"
  | .dot => "Dot"
  | .comma => "Comma"
  | .semi => "Semi"
  | .leftParen => "LParen"
  | .rightParen => "RParen"
  | .leftBracket => "LBracket"
  | .rightBracket => "RBracket"
  | .leftBrace => "LBrace"
  | .rightBrace => "RBrace"

/-- The symbol that a single character is. -/
def ofChar? : Char → Option Symbol
  | '+' => some .plus
  | '-' => some .minus
  | '*' => some .star
  | '/' => some .slash
  | '%' => some .percent
  | '!' => some .bang
  | '=' => some .eq
  | '<' => some .lt
  | '>' => some .gt
  | '.' => some .dot
  | ',' => some .comma
  | ';' => some .semi
  | '(' => some .leftParen
  | ')' => some .rightParen
  | '[' => some .leftBracket
  | ']' => some .rightBracket
  | '\x7b' => some .leftBrace
  | '\x7d' => some .rightBrace
  | _ => none

/-- The symbol that a symbol becomes with an equals sign after it. -/
def withEquals? : Symbol → Option Symbol
  | .bang => some .bangEq
  | .eq => some .eqEq
  | .lt => some .ltEq
  | .gt => some .gtEq
  | _ => none

end Symbol

/-- The kinds of tokens. -/
inductive TokenKind where
  | number
  | fractional
  | string
  | character
  | identifier
  | keyword (word : Keyword)
  | symbol (sign : Symbol)
  deriving DecidableEq, Inhabited, Repr

namespace TokenKind

/-- Every kind of token. -/
def all : List TokenKind :=
  [.number, .fractional, .string, .character, .identifier] ++ Keyword.all.map .keyword ++
    Symbol.all.map .symbol

/-- What messages call a kind. -/
def description : TokenKind → String
  | .number => "number"
  | .fractional => "fractional number"
  | .string => "string literal"
  | .character => "character literal"
  | .identifier => "identifier"
  | .keyword word => word.spelling
  | .symbol sign => sign.spelling

/-- The name of a kind in the listing of tokens. -/
def label : TokenKind → String
  | .number => "Number"
  | .fractional => "Fractional"
  | .string => "StringLit"
  | .character => "CharLit"
  | .identifier => "Ident"
  | .keyword word => word.label
  | .symbol sign => sign.label

/-- The kind is that of a reserved word. -/
def isKeyword : TokenKind → Bool
  | .keyword _ => true
  | _ => false

end TokenKind

/-- The value of a constant: a whole number of 64 bits, which is also the code of
a character, or a number in double precision. -/
inductive Literal where
  | whole (n : UInt64)
  | fractional (x : Binary)
  deriving DecidableEq, Inhabited, Repr

/-- The written form of a value. -/
def Literal.text : Literal → String
  | .whole n => toString n.toNat
  | .fractional x => Binary.double.text x

/-- A token of a scanned text. -/
structure Token where
  /-- Its kind. -/
  kind : TokenKind
  /-- The text that spells it; for a string, what stands between the quotes. -/
  lexeme : String
  /-- Its value, if it is a number or a character. -/
  literal : Option Literal
  /-- Where it starts. -/
  position : Position
  deriving DecidableEq, Inhabited, Repr

/-- The line of a token in the listing of tokens. -/
def Token.text (t : Token) : String :=
  let value := match t.literal with
    | some literal => s!" = {literal.text}"
    | none => ""
  s!"{t.position.text} {t.kind.label}({t.lexeme}){value}"

end SmallC
