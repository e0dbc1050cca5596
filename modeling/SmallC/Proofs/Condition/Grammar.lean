import SmallC.Condition

/-!
# The grammar of conditions

A condition is written as an expression: a choice binds most loosely, then come ten
rows of binary operators, and operators before an operand bind most tightly. This
file fixes the expressions, how they are spelled, which of them the grammar admits,
and what value they have over the whole numbers reduced to 64 bits.
-/

namespace SmallC.Condition

/-- An expression as it is written, with its parentheses. -/
inductive Expression where
  | number (text : String)
  | identifier (name : String)
  | isDefined (parenthesized : Bool) (name : String)
  | parentheses (inner : Expression)
  | unary (op : UnaryOperator) (operand : Expression)
  | binary (op : BinaryOperator) (left right : Expression)
  | choice (condition yes no : Expression)
  deriving DecidableEq, Repr

/-- The sign of an operator before an operand. -/
def UnaryOperator.punctuator : UnaryOperator → Punctuator
  | .plus => .plus
  | .minus => .minus
  | .not => .bang
  | .complement => .tilde

/-- The sign of an operator between two operands. -/
def BinaryOperator.punctuator : BinaryOperator → Punctuator
  | .or => .orOr
  | .and => .andAnd
  | .bitOr => .or
  | .bitXor => .caret
  | .bitAnd => .and
  | .eq => .eqEq
  | .ne => .bangEq
  | .lt => .lt
  | .gt => .gt
  | .le => .ltEq
  | .ge => .gtEq
  | .shiftLeft => .ltLt
  | .shiftRight => .gtGt
  | .add => .plus
  | .sub => .minus
  | .mul => .star
  | .div => .slash
  | .mod => .percent

/-- The rows of binary operators of equal precedence, the tightest first. -/
def precedence : List (List BinaryOperator) :=
  [[.mul, .div, .mod], [.add, .sub], [.shiftLeft, .shiftRight], [.lt, .gt, .le, .ge], [.eq, .ne],
    [.bitAnd], [.bitXor], [.bitOr], [.and], [.or]]

namespace Expression

/-- The tokens of an expression. -/
def spelling : Expression → List DirectiveToken
  | .number text => [.number text]
  | .identifier name => [.identifier name]
  | .isDefined false name => [.identifier "defined", .identifier name]
  | .isDefined true name =>
    [.identifier "defined", .punctuator .leftParen, .identifier name, .punctuator .rightParen]
  | .parentheses inner =>
    .punctuator .leftParen :: (inner.spelling ++ [.punctuator .rightParen])
  | .unary op operand => .punctuator op.punctuator :: operand.spelling
  | .binary op left right => left.spelling ++ .punctuator op.punctuator :: right.spelling
  | .choice condition yes no =>
    condition.spelling ++ .punctuator .question :: (yes.spelling ++
      .punctuator .colon :: no.spelling)

/-- The grammar. Level 0 holds the operands; level `k + 1` adds the operators of row
`k`, which associate to the left; level 11 adds the choice, which associates to the
right. Each level contains the one before it. -/
inductive Grammatical : Nat → Expression → Prop
  | number (text : String) : Grammatical 0 (.number text)
  | identifier {name : String} (h : name ≠ "defined") : Grammatical 0 (.identifier name)
  | isDefined (parenthesized : Bool) (name : String) :
      Grammatical 0 (.isDefined parenthesized name)
  | parentheses {inner : Expression} (h : Grammatical 11 inner) :
      Grammatical 0 (.parentheses inner)
  | unary (op : UnaryOperator) {operand : Expression} (h : Grammatical 0 operand) :
      Grammatical 0 (.unary op operand)
  | raise {k : Nat} {e : Expression} (hk : k ≤ 10) (h : Grammatical k e) : Grammatical (k + 1) e
  | binary {k : Nat} {row : List BinaryOperator} {op : BinaryOperator} {left right : Expression}
      (hrow : precedence[k]? = some row) (hop : op ∈ row)
      (hleft : Grammatical (k + 1) left) (hright : Grammatical k right) :
      Grammatical (k + 1) (.binary op left right)
  | choice {condition yes no : Expression} (hcondition : Grammatical 10 condition)
      (hyes : Grammatical 11 yes) (hno : Grammatical 11 no) :
      Grammatical 11 (.choice condition yes no)

/-- Every number in an expression is a literal of 64 bits. Which texts these are is said without
the evaluator by `IsLiteral`: see `number?_of_isLiteral` and `exists_isLiteral_of_number?`. -/
def NumbersReadable : Expression → Prop
  | .number text => (number? text.toList).isSome
  | .identifier _ | .isDefined _ _ => True
  | .parentheses inner => inner.NumbersReadable
  | .unary _ operand => operand.NumbersReadable
  | .binary _ left right => left.NumbersReadable ∧ right.NumbersReadable
  | .choice condition yes no =>
    condition.NumbersReadable ∧ yes.NumbersReadable ∧ no.NumbersReadable

end Expression

/-- One or zero, as a proposition holds or not. -/
def indicator (p : Prop) [Decidable p] : Int := if p then 1 else 0

/-- The whole number that an operator before an operand stands for, before it is
reduced to 64 bits. -/
def UnaryOperator.meaning : UnaryOperator → Int → Int
  | .plus, x => x
  | .minus, x => -x
  | .not, x => indicator (x = 0)
  | .complement, x => -x - 1

/-- The whole number that an operator between two operands stands for, before it is
reduced to 64 bits. Quotients are truncated towards zero, with the remainder to
match, and shifts are those of whole numbers without end, by a count taken modulo
64. The bits of `|`, `^` and `&` are those of the two's complement. -/
def BinaryOperator.meaning : BinaryOperator → Int → Int → Int
  | .or, x, y => indicator (x ≠ 0 ∨ y ≠ 0)
  | .and, x, y => indicator (x ≠ 0 ∧ y ≠ 0)
  | .bitOr, x, y => (BitVec.ofInt 64 x ||| BitVec.ofInt 64 y).toInt
  | .bitXor, x, y => (BitVec.ofInt 64 x ^^^ BitVec.ofInt 64 y).toInt
  | .bitAnd, x, y => (BitVec.ofInt 64 x &&& BitVec.ofInt 64 y).toInt
  | .eq, x, y => indicator (x = y)
  | .ne, x, y => indicator (x ≠ y)
  | .lt, x, y => indicator (x < y)
  | .gt, x, y => indicator (x > y)
  | .le, x, y => indicator (x ≤ y)
  | .ge, x, y => indicator (x ≥ y)
  | .shiftLeft, x, y => x <<< (y % 64).toNat
  | .shiftRight, x, y => x >>> (y % 64).toNat
  | .add, x, y => x + y
  | .sub, x, y => x - y
  | .mul, x, y => x * y
  | .div, x, y => x.tdiv y
  | .mod, x, y => x.tmod y

namespace Expression

/-- The value of an expression, every operand being evaluated and every result
reduced to 64 bits. A name has the value that the body of its macro spells, or zero. -/
def value (macros : MacroTable) : Expression → Int64
  | .number text => (number? text.toList).getD 0
  | .identifier name => ((macros.get? name).bind Macro.integer?).getD 0
  | .isDefined _ name => Int64.ofInt (indicator (macros.contains name))
  | .parentheses inner => inner.value macros
  | .unary op operand => Int64.ofInt (op.meaning (operand.value macros).toInt)
  | .binary op left right =>
    Int64.ofInt (op.meaning (left.value macros).toInt (right.value macros).toInt)
  | .choice condition yes no =>
    if condition.value macros ≠ 0 then yes.value macros else no.value macros

/-- No right operand of a `/` or `%` anywhere in an expression is zero. -/
def DivisorsNonzero (macros : MacroTable) : Expression → Prop
  | .number _ | .identifier _ | .isDefined _ _ => True
  | .parentheses inner => inner.DivisorsNonzero macros
  | .unary _ operand => operand.DivisorsNonzero macros
  | .binary op left right =>
    left.DivisorsNonzero macros ∧ right.DivisorsNonzero macros ∧
      (op = .div ∨ op = .mod → right.value macros ≠ 0)
  | .choice condition yes no =>
    condition.DivisorsNonzero macros ∧ yes.DivisorsNonzero macros ∧ no.DivisorsNonzero macros

end Expression

end SmallC.Condition
