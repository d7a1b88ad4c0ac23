/-!
# Positions in a line
-/

namespace Oberlet.Markdown

/-- White space: blanks, tabs and line breaks. Other control characters are text. -/
def isWhite (c : Char) : Bool := c == ' ' || c == '\t' || c == '\n' || c == '\r'

def isBlank (cs : List Char) : Bool := cs.all isWhite

def trimEnd (cs : List Char) : List Char := (cs.reverse.dropWhile isWhite).reverse

def trimStart (cs : List Char) : List Char := cs.dropWhile isWhite

/-! ## Indentation -/

/-- A tab reaches to the next column that is a multiple of four. -/
def tabWidth (column : Nat) : Nat := 4 - column % 4

/-- How far a text that begins at a column is indented, and by how many characters. -/
def indentOf (column : Nat) : List Char → Nat × Nat
  | ' ' :: rest =>
    let (width, count) := indentOf (column + 1) rest
    (width + 1, count + 1)
  | '\t' :: rest =>
    let (width, count) := indentOf (column + tabWidth column) rest
    (width + tabWidth column, count + 1)
  | _ => (0, 0)

/-- How many characters at the beginning of a text have at least a given width, and by how much
they are wider. There is no answer if the text is not indented that far. -/
def afterIndent? (column : Nat) (width : Nat) (cs : List Char) : Option (Nat × Nat) :=
  go column 0 0 cs
where
  /-- The search behind `count` characters of the width `seen`. -/
  go (column seen count : Nat) : List Char → Option (Nat × Nat)
    | ' ' :: rest =>
      if seen < width then go (column + 1) (seen + 1) (count + 1) rest
      else some (count, seen - width)
    | '\t' :: rest =>
      if seen < width then
        go (column + tabWidth column) (seen + tabWidth column) (count + 1) rest
      else some (count, seen - width)
    | _ => if seen < width then none else some (count, seen - width)

/-! ## Cursors -/

/-- A place in a line: the character before it, the column, the blanks that are left of a tab, and
the characters from there on, with the line break. -/
structure Cursor where
  before : Char
  column : Nat
  left : Nat
  rest : List Char
deriving DecidableEq, Repr

namespace Cursor

def start (line : List Char) : Cursor := ⟨'\n', 0, 0, line⟩

/-- The characters of the line from a place on. What is left of a tab counts as blanks. -/
def text (c : Cursor) : List Char := List.replicate c.left ' ' ++ c.rest

def indent (c : Cursor) : Nat × Nat := indentOf c.column c.text

def isBlank (c : Cursor) : Bool := Markdown.isBlank c.rest

/-- The place behind one character. -/
def next (c : Cursor) : Cursor :=
  if 0 < c.left then { c with column := c.column + 1, left := c.left - 1 }
  else match c.rest with
    | [] => c
    | d :: rest =>
      if d == '\n' then c
      else ⟨d, c.column + (if d == '\t' then tabWidth c.column else 1), 0, rest⟩

def advance (c : Cursor) : Nat → Cursor
  | 0 => c
  | count + 1 => c.next.advance count

/-- The same place with more blanks left of a tab. -/
def withLeft (c : Cursor) (left : Nat) : Cursor :=
  if c.left < left then { c with column := c.column - (left - c.left), left } else c

def lineEnd (c : Cursor) : Cursor :=
  ⟨c.before, c.column, 0, c.rest.dropWhile (· != '\n')⟩

end Cursor

end Oberlet.Markdown
