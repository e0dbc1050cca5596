import SmallC.Registry
import SmallC.Text.Quoted
import SmallC.Token

/-!
# Diagnostics

What can be wrong with a text, with a directive line and with a declaration, and
the wording of each message.
-/

namespace SmallC

/-- A fault in the spelling of a token. -/
inductive SpellingFault where
  | unterminatedString
  | unterminatedCharacter
  | emptyCharacter
  | severalCharacters
  | unexpectedCharacter (c : Char)
  | unknownEscape (c : Char)
  | unreadableNumber (text : String)
  deriving DecidableEq, Inhabited, Repr

/-- The message of a spelling fault. -/
def SpellingFault.message : SpellingFault → String
  | .unterminatedString => "unterminated string literal"
  | .unterminatedCharacter => "unterminated character literal"
  | .emptyCharacter => "empty character literal"
  | .severalCharacters => "character literal can only contain a single value"
  | .unexpectedCharacter c => "unexpected character: " ++ Text.quotedChar c
  | .unknownEscape c => "invalid escape sequence: \\" ++ String.singleton c
  | .unreadableNumber text => "invalid number: " ++ text

/-- A fault in a directive line. -/
inductive DirectiveFault where
  | malformed (reason : String)
  | includeNotFound (path : Path)
  | includeTooDeep (path : Path)
  | endifWithoutIf
  | missingEndif
  | elseWithoutIf
  | elifAfterElse
  | malformedParameters (reason : String)
  | malformedCondition (reason : String)
  | unreadableFile (path : Path) (reason : String)
  deriving DecidableEq, Inhabited, Repr

/-- The message of a fault in a directive line. -/
def DirectiveFault.message : DirectiveFault → String
  | .malformed reason => "invalid directive: " ++ reason
  | .includeNotFound path => "include file not found: " ++ path.text
  | .includeTooDeep path => "include nested too deeply (cycle?): " ++ path.text
  | .endifWithoutIf => "#endif without matching #if"
  | .missingEndif => "missing #endif"
  | .elseWithoutIf => "#else without matching #if"
  | .elifAfterElse => "#elif after #else"
  | .malformedParameters reason => "invalid macro arguments: " ++ reason
  | .malformedCondition reason => "invalid preprocessor condition: " ++ reason
  | .unreadableFile path reason => "I/O error reading " ++ path.text ++ ": " ++ reason

/-- A fault in a declaration. -/
inductive DeclarationFault where
  | unexpectedToken (expected : String) (found : TokenKind)
  | unexpectedEnd (expected : String)
  | noDeclaration (found : TokenKind) (lexeme : String)
  | duplicateFunction (name : String)
  | conflictingFunction (name : String)
  | duplicateParameter (name : String)
  | duplicateVariable (name : String)
  | voidVariable (name : String)
  | fractionalPointer (name : String)
  | initializedVoidPointer (name : String)
  | missingInitializer (name : String)
  | unmatchedBrace
  | unclosedBody (name : String)
  | duplicateNode (name : String)
  deriving DecidableEq, Inhabited, Repr

/-- The message of a fault in a declaration. -/
def DeclarationFault.message : DeclarationFault → String
  | .unexpectedToken expected found => "expected " ++ expected ++ ", found '" ++ found.description ++ "'"
  | .unexpectedEnd expected => "unexpected end of input, expected " ++ expected
  | .noDeclaration found lexeme => "unrecognized token: " ++ found.label ++ "(" ++ lexeme ++ ")"
  | .duplicateFunction name => "duplicate function: " ++ name ++ " already exists"
  | .conflictingFunction name => "conflicting declaration of function: " ++ name
  | .duplicateParameter name => "function argument " ++ name ++ " is already defined"
  | .duplicateVariable name => "variable " ++ name ++ " is already declared in this scope"
  | .voidVariable name => "incomplete variable not allowed: void " ++ name
  | .fractionalPointer name => "pointer " ++ name ++ " cannot have a fractional value"
  | .initializedVoidPointer name => "void pointer " ++ name ++ " cannot have an initial value"
  | .missingInitializer name => "missing constant initializer for variable " ++ name
  | .unmatchedBrace => "'\x7d' without an open body"
  | .unclosedBody name => "missing '\x7d' for body of " ++ name
  | .duplicateNode name => "duplicate tree node: " ++ name

/-- A fault and where it is: in a scanned text at a position, in a directive at
the location of its line. -/
inductive Diagnostic where
  | spelling (position : Position) (fault : SpellingFault)
  | directive (location : Location) (fault : DirectiveFault)
  | declaration (position : Position) (fault : DeclarationFault)
  deriving DecidableEq, Inhabited, Repr

namespace Diagnostic

/-- The message, with the position or the file number and line before it. -/
def message : Diagnostic → String
  | .spelling position fault => position.text ++ ": " ++ fault.message
  | .directive location fault =>
    s!"{location.file}:{location.line}: preprocessor error: {fault.message}"
  | .declaration position fault => position.text ++ ": " ++ fault.message

/-- The message, with the path in place of the number of a file. -/
def messageIn (files : Registry) : Diagnostic → String
  | .directive location fault =>
    files.describe location ++ ": preprocessor error: " ++ fault.message
  | d => d.message

/-- The position of a diagnostic. -/
def position : Diagnostic → Position
  | .spelling position _ => position
  | .directive location _ => Position.saturating location.line location.column
  | .declaration position _ => position

end Diagnostic

end SmallC
