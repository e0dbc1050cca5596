import SmallC.DirectiveToken
import SmallC.Macro

/-!
# Conditions

A condition is an expression over 64-bit two's complement integers. Every operand
is evaluated, in the order in which it is written, and the first fault in that
order is the fault of the condition. The reader is generic in what it builds: its
`Algebra` says what a number, a name and an operator contribute, and the integers
are one such algebra.
-/

namespace SmallC.Condition

/-- What can be wrong with a condition. -/
inductive Fault where
  | missingColon
  | missingParenthesis
  | missingName
  | missingNameParenthesis
  | unexpectedToken
  | unexpectedEnd
  | extraTokens
  | unreadableNumber (text : String)
  | divisionByZero
  | moduloByZero
  deriving DecidableEq, Inhabited, Repr

/-- The message of a fault. -/
def Fault.message : Fault → String
  | .missingColon => "expected ':' in ternary expression"
  | .missingParenthesis => "expected ')'"
  | .missingName => "expected identifier after 'defined'"
  | .missingNameParenthesis => "expected ')' after identifier in 'defined'"
  | .unexpectedToken => "unexpected token in preprocessor expression"
  | .unexpectedEnd => "unexpected end of expression"
  | .extraTokens => "extra tokens after expression"
  | .unreadableNumber text => "invalid number: " ++ text
  | .divisionByZero => "division by zero"
  | .moduloByZero => "modulo by zero"

/-- The operators before an operand. -/
inductive UnaryOperator where
  | plus | minus | not | complement
  deriving DecidableEq, Inhabited, Repr

/-- The operator that a punctuator is before an operand. -/
def UnaryOperator.ofPunctuator? : Punctuator → Option UnaryOperator
  | .plus => some .plus
  | .minus => some .minus
  | .bang => some .not
  | .tilde => some .complement
  | _ => none

/-- The operators between two operands. -/
inductive BinaryOperator where
  | or | and | bitOr | bitXor | bitAnd | eq | ne | lt | gt | le | ge
  | shiftLeft | shiftRight | add | sub | mul | div | mod
  deriving DecidableEq, Inhabited, Repr

namespace BinaryOperator

/-- The operator that a punctuator is between two operands. -/
def ofPunctuator? : Punctuator → Option BinaryOperator
  | .orOr => some .or
  | .andAnd => some .and
  | .or => some .bitOr
  | .caret => some .bitXor
  | .and => some .bitAnd
  | .eqEq => some .eq
  | .bangEq => some .ne
  | .lt => some .lt
  | .gt => some .gt
  | .ltEq => some .le
  | .gtEq => some .ge
  | .ltLt => some .shiftLeft
  | .gtGt => some .shiftRight
  | .plus => some .add
  | .minus => some .sub
  | .star => some .mul
  | .slash => some .div
  | .percent => some .mod
  | _ => none

/-- How loosely an operator binds: the operands of one of level `k` hold only
operators of lower levels. -/
def level : BinaryOperator → Nat
  | .or => 9
  | .and => 8
  | .bitOr => 7
  | .bitXor => 6
  | .bitAnd => 5
  | .eq | .ne => 4
  | .lt | .gt | .le | .ge => 3
  | .shiftLeft | .shiftRight => 2
  | .add | .sub => 1
  | .mul | .div | .mod => 0

end BinaryOperator

/-- What a reader makes of the parts of an expression. -/
structure Algebra (α : Type) where
  /-- A number, given its text. -/
  number : String → Except Fault α
  /-- A name. -/
  name : String → α
  /-- A name after `defined`. -/
  isDefined : String → α
  /-- An operator before an operand. -/
  unary : UnaryOperator → α → α
  /-- An operator between two operands. -/
  binary : BinaryOperator → α → α → Except Fault α
  /-- A choice between two operands. -/
  choice : α → α → α → α

/-- What was read from the start of a list of tokens, and the tokens after it,
fewer than `bound`. -/
structure Parsed (α : Type) (bound : Nat) where
  /-- What was read. -/
  value : α
  /-- The tokens after it. -/
  rest : List DirectiveToken
  /-- Something was read. -/
  shorter : rest.length < bound

/-- The tokens after a punctuator, if they start with it. -/
def after? (p : Punctuator) : List DirectiveToken → Option (List DirectiveToken)
  | .punctuator q :: rest => if q = p then some rest else none
  | _ => none

/-- What is behind a punctuator comes from a list that starts with it. -/
theorem eq_of_after?_eq_some {p : Punctuator} {ts rest : List DirectiveToken}
    (h : after? p ts = some rest) : ts = .punctuator p :: rest := by
  unfold after? at h
  split at h
  · split at h
    · simp_all
    · simp at h
  · simp at h

/-- Behind a punctuator there is one token less, which is why reading goes on to an end. -/
theorem length_of_after? {p : Punctuator} {ts rest : List DirectiveToken}
    (h : after? p ts = some rest) : ts.length = rest.length + 1 := by
  simp [eq_of_after?_eq_some h]

/-- The operator between operands that a list of tokens starts with, and the
tokens after it. -/
def binaryOperator? : List DirectiveToken → Option (BinaryOperator × List DirectiveToken)
  | .punctuator p :: rest => (BinaryOperator.ofPunctuator? p).map (·, rest)
  | _ => none

/-- Behind an operator there is one token less. -/
theorem length_of_binaryOperator? {op : BinaryOperator} {ts rest : List DirectiveToken}
    (h : binaryOperator? ts = some (op, rest)) : ts.length = rest.length + 1 := by
  unfold binaryOperator? at h
  split at h
  · obtain ⟨op', _, h⟩ := Option.map_eq_some_iff.1 h
    simp [← (Prod.mk.inj h).2]
  · simp at h

/-- A name after `defined`, in parentheses or not. -/
def definedName {α : Type} (a : Algebra α) (ts : List DirectiveToken) :
    Except Fault (Parsed α ts.length) :=
  match ts with
  | .identifier name :: rest => .ok ⟨a.isDefined name, rest, by simp⟩
  | .punctuator .leftParen :: .identifier name :: rest =>
    match h : after? .rightParen rest with
    | some rest' => .ok ⟨a.isDefined name, rest', by have := length_of_after? h; simp; omega⟩
    | none => .error .missingNameParenthesis
  | _ => .error .missingName

mutual

/-- An expression of any form: a choice, which has the lowest precedence and
whose last operand is again any expression, or what comes before its question
mark. -/
def expression {α : Type} (a : Algebra α) (ts : List DirectiveToken) :
    Except Fault (Parsed α ts.length) :=
  match operation a 10 ts with
  | .error e => .error e
  | .ok condition =>
    have hcondition := condition.shorter
    match hquestion : after? .question condition.rest with
    | none => .ok condition
    | some rest =>
      have hrest := length_of_after? hquestion
      match expression a rest with
      | .error e => .error e
      | .ok yes =>
        have hyes := yes.shorter
        match hcolon : after? .colon yes.rest with
        | none => .error .missingColon
        | some rest' =>
          have hrest' := length_of_after? hcolon
          match expression a rest' with
          | .error e => .error e
          | .ok no =>
            have hno := no.shorter
            .ok ⟨a.choice condition.value yes.value no.value, no.rest, by omega⟩
termination_by (ts.length, 12)
decreasing_by
  · exact Prod.Lex.right _ (by omega)
  · exact Prod.Lex.left _ _ (by omega)
  · exact Prod.Lex.left _ _ (by omega)

/-- An expression whose binary operators are of levels below `k`. -/
def operation {α : Type} (a : Algebra α) (k : Nat) (ts : List DirectiveToken) :
    Except Fault (Parsed α ts.length) :=
  match k with
  | 0 => operand a ts
  | k + 1 =>
    match operation a k ts with
    | .error e => .error e
    | .ok left => operations a k left.value left.rest ts.length left.shorter
termination_by (ts.length, k + 1)
decreasing_by
  · exact Prod.Lex.right _ (by omega)
  · exact Prod.Lex.right _ (by omega)
  · exact Prod.Lex.left _ _ left.shorter

/-- The operators of level `k` and their right operands, applied from left to
right to `left`. -/
def operations {α : Type} (a : Algebra α) (k : Nat) (left : α) (ts : List DirectiveToken)
    (bound : Nat) (h : ts.length < bound) : Except Fault (Parsed α bound) :=
  match hop : binaryOperator? ts with
  | none => .ok ⟨left, ts, h⟩
  | some (op, rest) =>
    have hrest := length_of_binaryOperator? hop
    if op.level = k then
      match operation a k rest with
      | .error e => .error e
      | .ok right =>
        have hright := right.shorter
        match a.binary op left right.value with
        | .error e => .error e
        | .ok value => operations a k value right.rest bound (by omega)
    else .ok ⟨left, ts, h⟩
termination_by (ts.length, 0)
decreasing_by
  · exact Prod.Lex.left _ _ (by omega)
  · exact Prod.Lex.left _ _ (by omega)

/-- A number, a name, an expression in parentheses, or an operator before an
operand. -/
def operand {α : Type} (a : Algebra α) (ts : List DirectiveToken) :
    Except Fault (Parsed α ts.length) :=
  match ts with
  | [] => .error .unexpectedEnd
  | .punctuator p :: rest =>
    match UnaryOperator.ofPunctuator? p with
    | some op =>
      match operand a rest with
      | .error e => .error e
      | .ok inner => .ok ⟨a.unary op inner.value, inner.rest, Nat.lt_succ_of_lt inner.shorter⟩
    | none =>
      if p = .leftParen then
        match expression a rest with
        | .error e => .error e
        | .ok inner =>
          match h : after? .rightParen inner.rest with
          | some rest' => .ok ⟨inner.value, rest', by
              have := length_of_after? h
              have := inner.shorter
              simp; omega⟩
          | none => .error .missingParenthesis
      else .error .unexpectedToken
  | .number text :: rest =>
    match a.number text with
    | .error e => .error e
    | .ok value => .ok ⟨value, rest, by simp⟩
  | .identifier name :: rest =>
    if name = "defined" then
      match definedName a rest with
      | .error e => .error e
      | .ok inner => .ok ⟨inner.value, inner.rest, Nat.lt_succ_of_lt inner.shorter⟩
    else .ok ⟨a.name name, rest, by simp⟩
  | _ :: _ => .error .unexpectedToken
termination_by (ts.length, 0)
decreasing_by
  · exact Prod.Lex.left _ _ (by simp)
  · exact Prod.Lex.left _ _ (by simp)

end

/-- What an algebra makes of a list of tokens that is one expression. -/
def read {α : Type} (a : Algebra α) (ts : List DirectiveToken) : Except Fault α :=
  match expression a ts with
  | .error e => .error e
  | .ok whole => if whole.rest.isEmpty then .ok whole.value else .error .extraTokens

/-- The letters that a number may have at its end, in any order and number. -/
def isSuffix (c : Char) : Bool := c == 'u' || c == 'U' || c == 'l' || c == 'L'

/-- The value of the digits of a number of 64 bits: hexadecimal after `0x`,
octal after a zero, decimal otherwise. -/
def magnitude? : List Char → Option Nat
  | '0' :: 'x' :: digits => Text.number? 16 digits
  | '0' :: 'X' :: digits => Text.number? 16 digits
  | '0' :: d :: digits => Text.number? 8 (d :: digits)
  | digits => Text.number? 10 digits

/-- The value of a number, as a two's complement integer. The text is that of a number
token, which has letters and digits only; a text with a sign has no value. -/
def number? (text : List Char) : Option Int64 :=
  match magnitude? (text.reverse.dropWhile isSuffix).reverse with
  | some n => if n < UInt64.size then some (UInt64.ofNat n).toInt64 else none
  | none => none

/-- One for what holds, zero for what does not. -/
def truth (b : Bool) : Int64 := if b then 1 else 0

/-- The value of an operator before an operand. -/
def UnaryOperator.apply : UnaryOperator → Int64 → Int64
  | .plus, x => x
  | .minus, x => -x
  | .not, x => truth (x == 0)
  | .complement, x => ~~~x

/-- The value of an operator between two operands: sums, products and quotients
wrap around, a shift counts modulo 64, and a division by zero has no value. -/
def BinaryOperator.apply : BinaryOperator → Int64 → Int64 → Except Fault Int64
  | .or, x, y => .ok (truth (x != 0 || y != 0))
  | .and, x, y => .ok (truth (x != 0 && y != 0))
  | .bitOr, x, y => .ok (x ||| y)
  | .bitXor, x, y => .ok (x ^^^ y)
  | .bitAnd, x, y => .ok (x &&& y)
  | .eq, x, y => .ok (truth (x == y))
  | .ne, x, y => .ok (truth (x != y))
  | .lt, x, y => .ok (truth (x < y))
  | .gt, x, y => .ok (truth (y < x))
  | .le, x, y => .ok (truth (x ≤ y))
  | .ge, x, y => .ok (truth (y ≤ x))
  | .shiftLeft, x, y => .ok (x <<< y)
  | .shiftRight, x, y => .ok (x >>> y)
  | .add, x, y => .ok (x + y)
  | .sub, x, y => .ok (x - y)
  | .mul, x, y => .ok (x * y)
  | .div, x, y => if y = 0 then .error .divisionByZero else .ok (x / y)
  | .mod, x, y => if y = 0 then .error .moduloByZero else .ok (x % y)

/-- The integers, a name having the value that its macro spells, or zero. -/
def integers (macros : MacroTable) : Algebra Int64 where
  number text := match number? text.toList with
    | some value => .ok value
    | none => .error (.unreadableNumber text)
  name name := ((macros.get? name).bind Macro.integer?).getD 0
  isDefined name := truth (macros.contains name)
  unary := UnaryOperator.apply
  binary := BinaryOperator.apply
  choice c x y := if c = 0 then y else x

/-- The value of a condition. -/
def evaluate (macros : MacroTable) (ts : List DirectiveToken) : Except Fault Int64 :=
  read (integers macros) ts

end SmallC.Condition
