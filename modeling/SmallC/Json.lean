import SmallC.Decimal

/-!
# JSON texts

A JSON value is written on one line, or with every member and item on a line of
its own. An empty object or list is written without a line break either way.
-/

namespace SmallC

/-- A JSON value; a number is whole, or a floating-point value of some format. -/
inductive Json where
  | null
  | bool (b : Bool)
  | whole (n : Int)
  | real (format : Binary.Format) (x : Binary)
  | string (s : String)
  | array (items : List Json)
  | object (members : List (String × Json))

namespace Json

/-- A control character without a short escape, by its code. -/
def controlEscape (c : Char) : List Char :=
  ['\\', 'u', '0', '0', Nat.digitChar (c.toNat / 16), Nat.digitChar (c.toNat % 16)]

/-- A character between the quotes of a text. -/
def escaped (c : Char) : List Char :=
  if c = '"' ∨ c = '\\' then ['\\', c]
  else if c = '\n' then ['\\', 'n']
  else if c = '\r' then ['\\', 'r']
  else if c = '\t' then ['\\', 't']
  else if c = '\x08' then ['\\', 'b']
  else if c = '\x0c' then ['\\', 'f']
  else if c.toNat < 0x20 then controlEscape c
  else [c]

/-- A text between quotes. -/
def quoted (s : String) : String := String.ofList ('"' :: s.toList.flatMap escaped ++ ['"'])

/-- A value without items or members. -/
def atom : Json → String
  | .bool b => toString b
  | .whole n => toString n
  | .real format x => (format.serialized x).getD "null"
  | .string s => quoted s
  | _ => "null"

mutual

/-- Writes a value on one line, after `out`. -/
def writeLine (out : String) : Json → String
  | .array items => (writeLineItems (out.push '[') items).push ']'
  | .object members => (writeLineMembers (out.push '\x7b') members).push '\x7d'
  | .null => out ++ atom .null
  | .bool b => out ++ atom (.bool b)
  | .whole n => out ++ atom (.whole n)
  | .real format x => out ++ atom (.real format x)
  | .string s => out ++ atom (.string s)

/-- Writes items with a comma between each two of them. -/
def writeLineItems (out : String) : List Json → String
  | [] => out
  | item :: items => writeLineMoreItems (writeLine out item) items

/-- Writes items with a comma before each of them. -/
def writeLineMoreItems (out : String) : List Json → String
  | [] => out
  | item :: items => writeLineMoreItems (writeLine (out.push ',') item) items

/-- Writes members with a comma between each two of them. -/
def writeLineMembers (out : String) : List (String × Json) → String
  | [] => out
  | (key, value) :: members =>
    writeLineMoreMembers (writeLine ((out ++ quoted key).push ':') value) members

/-- Writes members with a comma before each of them. -/
def writeLineMoreMembers (out : String) : List (String × Json) → String
  | [] => out
  | (key, value) :: members =>
    writeLineMoreMembers (writeLine ((out.push ',' ++ quoted key).push ':') value) members

end

/-- A value on one line. -/
def line (j : Json) : String := writeLine "" j

/-- A line break and the indentation of a level, two spaces for each. -/
def breakLine (level : Nat) : String := String.ofList ('\n' :: List.replicate (2 * level) ' ')

mutual

/-- Writes a value over several lines, after `out`; its items and members are
indented one level deeper than `level`. -/
def writeLines (out : String) (level : Nat) : Json → String
  | .array [] => out ++ "[]"
  | .array (item :: items) =>
    (writeLinesMoreItems (writeLines (out.push '[' ++ breakLine (level + 1)) (level + 1) item)
      (level + 1) items ++ breakLine level).push ']'
  | .object [] => out ++ "\x7b\x7d"
  | .object ((key, value) :: members) =>
    (writeLinesMoreMembers
      (writeLines (out.push '\x7b' ++ breakLine (level + 1) ++ quoted key ++ ": ") (level + 1) value)
      (level + 1) members ++ breakLine level).push '\x7d'
  | .null => out ++ atom .null
  | .bool b => out ++ atom (.bool b)
  | .whole n => out ++ atom (.whole n)
  | .real format x => out ++ atom (.real format x)
  | .string s => out ++ atom (.string s)

/-- Writes items with a comma and a line break before each of them. -/
def writeLinesMoreItems (out : String) (level : Nat) : List Json → String
  | [] => out
  | item :: items =>
    writeLinesMoreItems (writeLines (out.push ',' ++ breakLine level) level item) level items

/-- Writes members with a comma and a line break before each of them. -/
def writeLinesMoreMembers (out : String) (level : Nat) : List (String × Json) → String
  | [] => out
  | (key, value) :: members =>
    writeLinesMoreMembers
      (writeLines (out.push ',' ++ breakLine level ++ quoted key ++ ": ") level value) level members

end

/-- A value over several lines. -/
def lines (j : Json) : String := writeLines "" 0 j

end Json

end SmallC
