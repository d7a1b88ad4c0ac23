import Oberlet.Source.Span
import Oberlet.Text.Utf8

/-!
# Excerpts of a source text

A text with a line that is too long has no excerpts. Lines are measured in bytes.
-/

namespace Oberlet.Excerpt

/-- The length from which on a line is too long. -/
def lineLimit : Nat := 65536

/-- The lines of a text, without their line feeds. -/
def rawLines (source : Bytes) : List Bytes :=
  let parts := source.splitOn 10
  if parts.getLast? == some [] then parts.dropLast else parts

/-- A line without the carriage return at its end. -/
def dropReturn (line : Bytes) : Bytes :=
  if line.getLast? == some 13 then line.dropLast else line

def lines? (source : Bytes) : Option (List Bytes) :=
  let raw := rawLines source
  if raw.any (lineLimit ≤ ·.length) then none else some (raw.map dropReturn)

/-- Tabs are shown as four blanks. -/
def expandTabs (line : Bytes) : Bytes :=
  line.flatMap fun b => if b == 9 then [32, 32, 32, 32] else [b]

def indentOf (line : Bytes) : Nat := (line.takeWhile (· == 32)).length

/-- The indentation that all shown lines have in common is left out. -/
def commonIndent (lines : List Bytes) : Nat := ((lines.map indentOf).min?).getD 0

/-- One line of an excerpt: its number, its text without the common indentation, and the carets
below it behind a number of blanks. -/
structure Row where
  number : Int
  text : Bytes
  blanks : Nat
  carets : Nat
deriving DecidableEq, Repr

/-- The lines that a span touches. -/
def touched (lines : List Bytes) (span : Span) : List Bytes :=
  (lines.zipIdx.filter fun (_, i) => span.startLine ≤ i ∧ (i : Int) ≤ span.endLine).map (·.1)

/-- The row of a line. Only the first row starts at the first column of the span, and only the
last stops at its last column. There is always at least one caret. -/
def row (span : Span) (indent : Nat) (isLast : Bool) (index : Nat) (line : Bytes) : Row :=
  let before : Int := if index == 0 then span.startCol - indent else 0
  let after : Int := if isLast then line.length - span.endCol else 0
  let covered : Int := line.length - after - before - indent
  { number := index + span.startLine + 1
    text := line.drop indent
    blanks := before.toNat
    carets := (max covered 1).toNat }

def rows (source : Bytes) (span : Span) : List Row :=
  match lines? source with
  | none => []
  | some lines =>
    let shown := (touched lines span).map expandTabs
    let indent := commonIndent shown
    shown.zipIdx.map fun (line, i) => row span indent (i + 1 == shown.length) i line

def fill (count : Nat) (c : Char) : String := String.ofList (List.replicate count c)

/-- The two lines that show a row. -/
def Row.render (width : Nat) (row : Row) : String :=
  let number := toString row.number
  let gap := fill (width - number.length) ' '
  let text := Text.Utf8.text row.text
  number ++ gap ++ " | " ++ text ++ "\n"
    ++ fill width ' ' ++ " | " ++ fill row.blanks ' ' ++ fill row.carets '^' ++ "\n"

/-- The text of an excerpt, closed by an empty line. There is none when the span touches no line
of the text. -/
def render (source : Bytes) (span : Span) : String :=
  let width := (toString (span.endLine + 1)).length
  match rows source span with
  | [] => ""
  | rows => String.join (rows.map (·.render width)) ++ "\n"

end Oberlet.Excerpt
