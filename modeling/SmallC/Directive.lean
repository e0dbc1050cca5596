import SmallC.Diagnostic
import SmallC.DirectiveToken

/-!
# Directives

A line whose first character that is not white space is a hash is a directive.
What follows the hash is read as a directive name and its arguments; the
arguments are looked at only when the directive takes effect.
-/

namespace SmallC

/-- A directive line with its arguments. -/
inductive Directive where
  | empty
  | define (arguments : List DirectiveToken.Placed)
  | undef (arguments : List DirectiveToken.Placed)
  | include (target : List Char)
  | ifdef (arguments : List DirectiveToken.Placed)
  | ifndef (arguments : List DirectiveToken.Placed)
  | if (arguments : List DirectiveToken.Placed)
  | elif (arguments : List DirectiveToken.Placed)
  | else
  | endif
  | unknown (name : String)
  deriving DecidableEq, Repr

namespace Directive

/-- The directive of a name, with the tokens and the text after the name. -/
def ofName (name : String) (arguments : List DirectiveToken.Placed) (rest : List Char) :
    Directive :=
  if name = "define" then .define arguments
  else if name = "undef" then .undef arguments
  else if name = "include" then .include rest
  else if name = "ifdef" then .ifdef arguments
  else if name = "ifndef" then .ifndef arguments
  else if name = "if" then .if arguments
  else if name = "elif" then .elif arguments
  else if name = "else" then .else
  else if name = "endif" then .endif
  else .unknown name

/-- The directive that the tokens after a hash form. -/
def ofTokens : List DirectiveToken.Placed → Directive
  | [] => .empty
  | ⟨_, .identifier name, rest⟩ :: arguments => ofName name arguments rest
  | _ :: _ => .unknown ""

/-- The directive of a line, if it is one. -/
def ofLine? (line : List Char) : Option Directive :=
  match Text.trimStart line with
  | '#' :: cs => some (ofTokens (DirectiveToken.all (DirectiveToken.stripComment cs)))
  | _ => none

/-- The name of a directive, unless it is empty. -/
def name? : Directive → Option String
  | .empty => none
  | .define _ => some "define"
  | .undef _ => some "undef"
  | .include _ => some "include"
  | .ifdef _ => some "ifdef"
  | .ifndef _ => some "ifndef"
  | .if _ => some "if"
  | .elif _ => some "elif"
  | .else => some "else"
  | .endif => some "endif"
  | .unknown name => some name

/-- What a `#define` line defines. -/
structure Definition where
  /-- The name. -/
  name : String
  /-- The parameters, if it takes arguments. -/
  parameters : Option (List String)
  /-- The replacement text. -/
  body : String
  deriving DecidableEq, Repr

/-- The parameters up to the closing parenthesis, put after the reversed `names`,
and the text after it. `open_` says that a parameter has to come next; right after
the opening parenthesis the list may also end. -/
def parameters (open_ : Bool) (names : List String) :
    List DirectiveToken.Placed → Except DirectiveFault (List String × List Char)
  | [] => .error (.malformedParameters "missing ')' in parameter list")
  | t :: ts =>
    if open_ then
      match t.token with
      | .identifier name => parameters false (name :: names) ts
      | .punctuator .ellipsis => parameters false ("__VA_ARGS__" :: names) ts
      | .punctuator .rightParen =>
        if names.isEmpty then .ok ([], t.rest)
        else .error (.malformedParameters "expected parameter name")
      | _ => .error (.malformedParameters "expected parameter name")
    else
      match t.token with
      | .punctuator .rightParen => .ok (names.reverse, t.rest)
      | .punctuator .comma => parameters true names ts
      | _ => .error (.malformedParameters "expected ',' or ')'")

/-- What the arguments of a `#define` define. A parenthesis right after the name
opens a list of parameters. -/
def definition : List DirectiveToken.Placed → Except DirectiveFault Definition
  | ⟨_, .identifier name, rest⟩ :: ts =>
    if rest.head? = some '(' then
      match parameters true [] ts.tail with
      | .error fault => .error fault
      | .ok (names, body) => .ok ⟨name, some names, String.ofList (Text.trim body)⟩
    else .ok ⟨name, none, String.ofList (Text.trim rest)⟩
  | _ => .error (.malformed "expected macro name")

/-- The macro name that the arguments of an `#undef` start with. -/
def undefined : List DirectiveToken.Placed → Except DirectiveFault String
  | ⟨_, .identifier name, _⟩ :: _ => .ok name
  | _ => .error (.malformed "expected macro name after #undef")

/-- The macro name that the arguments of an `#ifdef` or `#ifndef` start with. -/
def tested : List DirectiveToken.Placed → Except DirectiveFault String
  | ⟨_, .identifier name, _⟩ :: _ => .ok name
  | _ => .error (.malformed "expected macro name")

/-- The name of a file to include: in quotes, or in angle brackets. -/
inductive HeaderName where
  | quoted (path : Path)
  | angled (path : Path)
  deriving DecidableEq, Repr

/-- The path itself. -/
def HeaderName.path : HeaderName → Path
  | .quoted path => path
  | .angled path => path

/-- The name that the text after `#include` starts with. It ends at the next
closing mark, or with the line, and must not be empty. -/
def headerName (target : List Char) : Except DirectiveFault HeaderName :=
  let named (cs : List Char) (header : Path → HeaderName) :=
    if cs.isEmpty then .error (.malformed "include path missing")
    else .ok (header ⟨String.ofList cs⟩)
  match Text.trim target with
  | '"' :: cs => named (cs.takeWhile (· ≠ '"')) .quoted
  | '<' :: cs => named (cs.takeWhile (· ≠ '>')) .angled
  | _ => .error (.malformed "include path missing")

end Directive

end SmallC
