import Oberlet.Markdown.Link
import Oberlet.Markdown.Tag
import Oberlet.Text.Punctuation
import Oberlet.Text.Space

/-!
# The text of a heading

A run of asterisks or underscores can open or close emphasis, depending on the characters around it.
A run that closes takes marks from the nearest run before it that can open; what is between the two
can no longer open anything.
-/

namespace Oberlet.Markdown

/-- A line of text, and the character before it. -/
structure TextLine where
  before : Char
  text : List Char
deriving DecidableEq, Repr

/-- A character with the one before it. -/
structure Spot where
  before : Char
  char : Char
deriving DecidableEq, Repr

/-- A run of marks of emphasis, of which some may be `left`. -/
structure MarkRun where
  mark : Char
  length : Nat
  left : Nat
  canOpen : Bool
  canClose : Bool
deriving DecidableEq, Repr

/-- A part of a text. A bracket is one that may open the text of a link or of an image, with what
is behind it. Behind the text of a link it is noted that there is one. -/
inductive Piece
  | plain (cs : List Char)
  | run (run : MarkRun)
  | bracket (isImage : Bool) (behind : List Char)
  | link
deriving DecidableEq, Repr

/-! ## Emphasis -/

/-- The run of marks between two characters. It can open emphasis if it leans on what follows,
and close it if it leans on what comes before; underscores in the middle of a word do neither. -/
def MarkRun.between (mark : Char) (length : Nat) (before after : Char) : MarkRun :=
  let leansRight := !Text.isSpace after &&
    (!Text.isPunctuation after || Text.isSpace before || Text.isPunctuation before)
  let leansLeft := !Text.isSpace before &&
    (!Text.isPunctuation before || Text.isSpace after || Text.isPunctuation after)
  if mark == '_' then
    ⟨mark, length, length, leansRight && (!leansLeft || Text.isPunctuation before),
      leansLeft && (!leansRight || Text.isPunctuation after)⟩
  else ⟨mark, length, length, leansRight, leansLeft⟩

/-- Whether a run can open the emphasis that another run closes. When one of the two could do
both, their lengths must not add up to a multiple of three unless both are multiples of three. -/
def MarkRun.opens (opener closer : MarkRun) : Bool :=
  opener.canOpen && opener.mark == closer.mark && 0 < opener.left &&
    !((opener.canClose || closer.canOpen) && (opener.length + closer.length) % 3 == 0
      && !(opener.length % 3 == 0 && closer.length % 3 == 0))

/-- A part that can no longer open anything. -/
def Piece.spent : Piece → Piece
  | .run r => .run { r with canOpen := false }
  | p => p

/-- Takes the marks for one emphasis from the nearest opener in the parts before a closer, nearest
part first. Answers how many marks it took. -/
def takeOpener? (closer : MarkRun) : List Piece → Option (Nat × List Piece)
  | [] => none
  | .run r :: rest =>
    if r.opens closer then
      let count := if 2 ≤ r.left && 2 ≤ closer.left then 2 else 1
      some (count, .run { r with left := r.left - count } :: rest)
    else (takeOpener? closer rest).map fun (count, rest) =>
      (count, (Piece.run r).spent :: rest)
  | p :: rest => (takeOpener? closer rest).map fun (count, rest) => (count, p :: rest)

/-- Closes as much as a run can close. Answers what is left of it and of the parts before it. -/
def closeRun : (fuel : Nat) → MarkRun → List Piece → MarkRun × List Piece
  | 0, r, before => (r, before)
  | fuel + 1, r, before =>
    if r.canClose && 0 < r.left then
      match takeOpener? r before with
      | some (count, before) => closeRun fuel { r with left := r.left - count } before
      | none => (r, before)
    else (r, before)

/-- Takes out the marks of emphasis. The parts already seen come nearest first, and so does the
answer. -/
def settle (before : List Piece) : List Piece → List Piece
  | [] => before
  | .run r :: rest =>
    let (r, before) := closeRun r.left r before
    settle (.run r :: before) rest
  | p :: rest => settle (p :: before) rest

/-- What is left of a part in the text. -/
def Piece.chars : Piece → List Char
  | .plain cs => cs
  | .run r => List.replicate r.left r.mark
  | .bracket isImage _ => if isImage then ['!', '['] else ['[']
  | .link => []

/-- A part without any meaning but its characters. A link stays noted. -/
def Piece.flat : Piece → Piece
  | .link => .link
  | p => .plain p.chars

/-! ## Code -/

/-- The text up to a run of backticks of a given length, and the text behind that run. The second
argument is how many backticks stand right before. -/
def codeUntil? (length : Nat) (count : Nat) (seen : List Spot) :
    List Spot → Option (List Char × List Spot)
  | [] => if count == length then some (((seen.drop length).reverse).map (·.char), []) else none
  | s :: rest =>
    if s.char == codeMark then codeUntil? length (count + 1) (s :: seen) rest
    else if count == length then some (((seen.drop length).reverse).map (·.char), s :: rest)
    else codeUntil? length 0 (s :: seen) rest

/-- Code without one blank at each end. -/
def trimCode (code : List Char) : List Char :=
  let isEdge (c : Char) : Bool := c == ' ' || c == '\n'
  if code.head?.any isEdge && code.getLast?.any isEdge && !isBlank code then
    code.tail.dropLast
  else code

/-! ## Links -/

/-- The nearest bracket in the parts of a text, nearest part first: the parts behind it, whether it
is one of an image, the text behind it, and the parts before it. -/
def splitBracket? : List Piece → Option (List Piece × Bool × List Char × List Piece)
  | [] => none
  | .bracket isImage behind :: rest => some ([], isImage, behind, rest)
  | p :: rest => (splitBracket? rest).map fun (inner, found) => (p :: inner, found)

/-- What is behind a link of which the text ends with a closing bracket, by the text in the
brackets and the text behind them. The destination is in parentheses, or is defined under a label
in further brackets or under the text itself. -/
def afterLinkText? (labels : List String) (text behind : List Char) : Option (List Char) :=
  let isDefined (text : List Char) : Bool := label text ∈ labels
  let short : Option (List Char) := if isDefined text then some behind else none
  match behind with
  | '(' :: rest => (afterTarget? rest).or short
  | '[' :: rest =>
    match upTo? '[' ']' rest with
    | some (name, rest) =>
      if isDefined (if isBlank name then text else name) then some rest else none
    | none => short
  | _ => short

/-! ## Reading the parts -/

/-- What has been read of a text: its parts, last first, and the plain characters behind them, last
first. `isEscaped` tells whether a backslash stands right before, and `isFresh` whether a part or a
line has just begun. -/
structure Scan where
  parts : List Piece
  text : List Char
  isEscaped : Bool
  isFresh : Bool
deriving DecidableEq, Repr

namespace Scan

/-- Adds a part behind the text. -/
def push (s : Scan) (p : Piece) : Scan :=
  ⟨p :: .plain s.text.reverse :: s.parts, [], s.isEscaped, true⟩

/-- White space at the end of a line is dropped. -/
def endLine (s : Scan) : Scan :=
  ⟨.plain (s.text.dropWhile isWhite).reverse :: s.parts, [], s.isEscaped, true⟩

/-- Adds a plain character. -/
def add (s : Scan) (c : Char) : Scan :=
  ⟨s.parts, c :: s.text, !s.isEscaped && c == '\\', false⟩

/-- What stands behind a backslash that breaks a line: there is no further backslash before it. -/
def afterBreak? (s : Scan) (cs : List Spot) : Option (List Spot) :=
  if !s.isFresh && s.text.head? == some '\\' then none
  else match cs.map (·.char) with
    | '\n' :: _ => some (cs.drop 1)
    | '\r' :: '\n' :: _ => some (cs.drop 2)
    | _ => none

/-- Reads the markup that a character begins, if it begins any. The answer has what is behind the
markup; without one the scan may have changed, but the character is plain. -/
def markup (labels : List String) (s : Scan) (c : Char) (before : Char) (rest : List Spot) :
    Scan × Option (List Spot) :=
  let chars := rest.map (·.char)
  let skipTo (behind : List Char) : List Spot := rest.drop (chars.length - behind.length)
  let plain : Scan := { s with isEscaped := false }
  if c == codeMark then
    let length := 1 + (chars.takeWhile (· == codeMark)).length
    let behind := rest.drop (length - 1)
    match codeUntil? length 0 [] behind with
    | some (code, behind) => (s.push (.plain (trimCode code)), some behind)
    | none => (s.push (.plain (List.replicate length codeMark)), some behind)
  else if c == '*' || c == '_' then
    let length := 1 + (chars.takeWhile (· == c)).length
    let after := (chars.drop (length - 1)).head?.getD ' '
    (s.push (.run (.between c length before after)), some (rest.drop (length - 1)))
  else if c == '<' then
    match afterMarkup? (c :: chars) with
    | some behind => (s.push (.plain []), some (skipTo behind))
    | none => (plain, none)
  else if c == '[' then (s.push (.bracket false chars), some rest)
  else if c == '!' && chars.head? == some '[' then
    (s.push (.bracket true chars.tail), some rest.tail)
  else if c == ']' then
    match splitBracket? (.plain s.text.reverse :: s.parts) with
    | none => (plain, none)
    | some (inner, isImage, behind, outer) =>
      let text := behind.take (behind.length - chars.length - 1)
      let link? :=
        if !isImage && .link ∈ inner then none else afterLinkText? labels text chars
      match link? with
      | some behind =>
        let inner := (settle [] inner.reverse).map Piece.flat
        let noted := if isImage then inner else .link :: inner
        (⟨noted ++ outer, [], s.isEscaped, true⟩, some (skipTo behind))
      | none =>
        let bracket : Piece := (Piece.bracket isImage []).flat
        (⟨inner ++ bracket :: outer, [], false, s.isFresh⟩, none)
  else (s, none)

def pieces (labels : List String) : (fuel : Nat) → Scan → List Spot → List Piece
  | 0, s, _ => s.endLine.parts
  | _, s, [] => s.endLine.parts
  | fuel + 1, s, ⟨before, c⟩ :: rest =>
    if c == '\n' then pieces labels fuel s.endLine rest
    else
      match if c == '\\' then s.afterBreak? rest else none with
      | some behind => pieces labels fuel (s.push (.plain [])) behind
      | none =>
        if (isMark c && !s.isEscaped) || s.isFresh then
          match s.markup labels c before rest with
          | (s, some behind) => pieces labels fuel s behind
          | (s, none) => pieces labels fuel (s.add c) rest
        else pieces labels fuel (s.add c) rest

end Scan

def TextLine.spots (line : TextLine) : List Spot :=
  (line.text.zip (line.before :: line.text)).map fun (char, before) => ⟨before, char⟩

def spots : List TextLine → List Spot
  | [] => []
  | first :: rest => TextLine.spots { first with before := '\n' } ++ rest.flatMap TextLine.spots

/-- What is left of the text of a heading when its markup is taken out. A backslash stays, but the
character behind it is not markup. -/
def plainText (labels : List String) (lines : List TextLine) : String :=
  let all := spots lines
  let parts := Scan.pieces labels (all.length + 1) ⟨[], [], false, true⟩ all
  String.ofList ((settle [] parts.reverse).reverse.flatMap Piece.chars)

end Oberlet.Markdown
