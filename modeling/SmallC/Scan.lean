import SmallC.Log
import SmallC.Segment

/-!
# Scanning

The segments of a text are laid out one after the other, which gives every token
and every fault the position of its first character. A text with a fault has no
tokens: it is refused with all its faults.
-/

namespace SmallC

/-- A line and a column, counted from one. They have no upper bound of their own: neither is
ever greater than the number of characters before it and one, so that 32 bits hold both in
every text shorter than that. -/
structure Cursor where
  /-- The line. -/
  line : Nat
  /-- The column, in characters. -/
  column : Nat
  deriving DecidableEq, Repr

namespace Cursor

/-- Before the first character. -/
def start : Cursor := ⟨1, 1⟩

/-- After one more character. -/
def next (p : Cursor) (c : Char) : Cursor :=
  if c = '\n' then ⟨p.line + 1, 1⟩ else ⟨p.line, p.column + 1⟩

/-- After some more characters. -/
def after (p : Cursor) (cs : List Char) : Cursor := cs.foldl next p

/-- No characters move no counters. -/
@[simp] theorem after_nil (p : Cursor) : p.after [] = p := rfl

/-- Characters one behind the other move the counters one after the other. -/
@[simp] theorem after_append (p : Cursor) (as bs : List Char) :
    p.after (as ++ bs) = (p.after as).after bs := by
  simp [after, List.foldl_append]

/-- The position of the next character. -/
def position (p : Cursor) : Position := Position.saturating p.line p.column

end Cursor

/-- The tokens and faults of the segments so far. -/
structure Scan where
  /-- Where the next segment starts. -/
  cursor : Cursor
  /-- The tokens, in order. -/
  tokens : Array Token
  /-- The faults, in order. -/
  faults : Array Diagnostic

namespace Scan

/-- Before the first segment. -/
def start : Scan := ⟨Cursor.start, #[], #[]⟩

/-- After one more segment. -/
def add (s : Scan) (segment : Segment) : Scan :=
  let cursor := s.cursor.after segment.text
  match segment.piece with
  | .gap => { s with cursor }
  | .token kind lexeme literal =>
    let token := ⟨kind, String.ofList lexeme, literal, s.cursor.position⟩
    { s with cursor, tokens := s.tokens.push token }
  | .fault fault =>
    { s with cursor, faults := s.faults.push (.spelling s.cursor.position fault) }

/-- The whole of a text. -/
def ofText (source : String) : Scan := (Segment.all source.toList).foldl add start

/-- What the scanner reports. -/
def record (s : Scan) : Log.Record :=
  ⟨.debug, .scanner, s!"scanned {s.tokens.size} tokens, {s.faults.size} errors"⟩

end Scan

/-- The faults of a text that was refused, with the text. -/
structure ScanFailure where
  /-- The faults, in order. -/
  faults : List Diagnostic
  /-- The text. -/
  source : String
  deriving DecidableEq, Inhabited, Repr

/-- Every fault on a line of its own, then the text. -/
def ScanFailure.message (e : ScanFailure) : String :=
  String.join (e.faults.map fun d => d.message ++ "\n") ++ "Reference source:\n" ++ e.source

/-- The tokens of a scanned text, or its faults if there are any. -/
def Scan.result (s : Scan) (source : String) : Except ScanFailure (List Token) :=
  if s.faults.isEmpty then .ok s.tokens.toList else .error ⟨s.faults.toList, source⟩

/-- The tokens of a text, or all its faults. -/
def tokenize (source : String) : Except ScanFailure (List Token) :=
  (Scan.ofText source).result source

end SmallC
