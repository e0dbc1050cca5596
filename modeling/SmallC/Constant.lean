import SmallC.Json
import SmallC.Token

/-!
# Types and constants

A type is a primitive type or a pointer to one. The constant of a variable is the
value of a literal narrowed to the primitive type: integers wrap around, a
fraction is first rounded to the nearest whole number, and a half goes to the
even one.
-/

namespace SmallC

/-- The primitive types. -/
inductive Primitive where
  | int | float | bool | char | short | void
  deriving DecidableEq, Inhabited, Repr

namespace Primitive

/-- Every primitive type. -/
def all : List Primitive := [.int, .float, .bool, .char, .short, .void]

/-- The name of a primitive type. -/
def name : Primitive → String
  | .int => "int"
  | .float => "float"
  | .bool => "bool"
  | .char => "char"
  | .short => "short"
  | .void => "void"

/-- The type that a reserved word names. -/
def ofKeyword? : Keyword → Option Primitive
  | .int => some .int
  | .float => some .float
  | .bool => some .bool
  | .char => some .char
  | .short => some .short
  | .void => some .void
  | _ => none

/-- The type that a token of some kind names. -/
def ofKind? : TokenKind → Option Primitive
  | .keyword word => ofKeyword? word
  | _ => none

end Primitive

/-- A primitive type, or a pointer to it. -/
structure TypeSpec where
  /-- The primitive type. -/
  base : Primitive
  /-- It is a pointer. -/
  isPointer : Bool
  deriving DecidableEq, Inhabited, Repr

namespace TypeSpec

/-- The type without values. -/
def isVoid (t : TypeSpec) : Bool := t.base = .void && !t.isPointer

/-- The written form of a type. -/
def text (t : TypeSpec) : String := t.base.name ++ if t.isPointer then "*" else ""

end TypeSpec

/-- A value of a primitive type; a `float` value is in single precision. -/
inductive Constant where
  | int (n : Int32)
  | float (x : Binary)
  | char (n : UInt8)
  | short (n : Int16)
  | bool (b : Bool)
  deriving DecidableEq, Inhabited, Repr

/-- The whole number nearest to a literal, as an integer of 64 bits with a sign: a whole number
above their range becomes a negative one, a fraction stays at the end of the range. -/
def Literal.toInt : Literal → Int
  | .whole n => n.toInt64.toInt
  | .fractional x => x.roundWhole.truncated

/-- The single-precision value nearest to the whole number nearest to a literal. -/
def Literal.toSingle : Literal → Binary
  | .whole n => Binary.single.round false n.toNat 1
  | .fractional x => Binary.single.convert x.roundWhole

namespace Constant

/-- The constant of a type that a literal gives. A `bool` is false whatever the
literal, and `void` has no constants. -/
def ofLiteral (base : Primitive) (literal : Literal) : Option Constant :=
  match base with
  | .int => some (.int (Int32.ofInt literal.toInt))
  | .float => some (.float literal.toSingle)
  | .bool => some (.bool false)
  | .char => some (.char (UInt8.ofInt literal.toInt))
  | .short => some (.short (Int16.ofInt literal.toInt))
  | .void => none

/-- The whole number of a constant, towards zero and within 64 bits. -/
def toInt : Constant → Int
  | .int n => n.toInt
  | .float x => x.truncated
  | .char n => n.toNat
  | .short n => n.toInt
  | .bool b => if b then 1 else 0

/-- The written form of a constant. -/
def text : Constant → String
  | .int n => toString n.toInt
  | .float x => Binary.single.text x
  | .char n => toString n.toNat
  | .short n => toString n.toInt
  | .bool b => if b then "1" else "0"

/-- A constant as JSON, floating-point values in the given format. -/
def toJson (format : Binary.Format) : Constant → Json
  | .int n => .whole n.toInt
  | .float x => .real format x
  | .char n => .whole n.toNat
  | .short n => .whole n.toInt
  | .bool b => .bool b

end Constant

end SmallC
