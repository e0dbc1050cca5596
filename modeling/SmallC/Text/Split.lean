/-!
# Cutting a text into pieces

`pieces` cuts a text at every occurrence of a separator, and `lines` cuts it
into lines. Joining the pieces with the separator gives the text back.
-/

namespace SmallC.Text

/-- The pieces of a text between the occurrences of `separator`, put in front of
the reversed `done`; `piece` holds the reversed start of the current piece. -/
def piecesFrom (separator : Char) (done : List (List Char)) (piece : List Char) :
    List Char → List (List Char)
  | [] => (piece.reverse :: done).reverse
  | c :: cs =>
    if c = separator then piecesFrom separator (piece.reverse :: done) [] cs
    else piecesFrom separator done (c :: piece) cs

/-- The pieces of a text between the occurrences of `separator`; there is always
one more of them than there are separators. -/
def pieces (separator : Char) (cs : List Char) : List (List Char) :=
  piecesFrom separator [] [] cs

/-- The pieces with the separator between each two of them. -/
def joined (separator : Char) : List (List Char) → List Char
  | [] => []
  | [piece] => piece
  | piece :: next :: rest => piece ++ separator :: joined separator (next :: rest)

/-- A piece without the carriage return at its end, if it has one. -/
def dropReturn (piece : List Char) : List Char :=
  match piece.reverse with
  | '\r' :: rest => rest.reverse
  | _ => piece

/-- The lines of a text. A line ends with a line feed, or with a carriage return
and a line feed; the last line need not end, and an empty one does not count. -/
def lines (cs : List Char) : List (List Char) :=
  match (pieces '\n' cs).reverse with
  | [] => []
  | last :: ended =>
    let complete := ended.reverse.map dropReturn
    if last.isEmpty then complete else complete ++ [last]

end SmallC.Text
