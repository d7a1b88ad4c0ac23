import Oberlet.Markdown.Inline

/-!
# Headings and fences

Each line first continues the frames that are open. Where a line does not continue a frame, what is
left of it continues the open paragraph or begins something new.
-/

namespace Oberlet.Markdown

structure Fence where
  language : String
  content : String
  /-- The number of the first line of the content, `1` if there is none. -/
  line : Nat
deriving DecidableEq, Repr

/-- What a document is read for. -/
inductive Block
  | heading (text : String)
  | fence (fence : Fence)
deriving DecidableEq, Repr

/-- A heading or a fenced block while a document is read. The lines of the content of a fence come
last first. -/
inductive Found
  | heading (lines : List TextLine)
  | fence (info : List Char) (lines : List (List Char)) (firstLine : Option Nat)
deriving DecidableEq, Repr

/-- Something that is open. A list knows the offset of the content of its last item, and whether
that item is hollow, which is when there is nothing in it yet. The lines of a paragraph come last
first. A heading or a rule is complete as soon as it begins. -/
inductive Frame
  | quote
  | list (mark : Char) (offset : Nat) (isHollow : Bool)
  | item
  | paragraph (lines : List TextLine)
  | code
  | fence (mark : Char) (length : Nat) (indent : Nat)
  | markup (ending : MarkupEnd) (isMet : Bool)
  | complete
deriving DecidableEq, Repr

def Frame.isParagraph : Frame → Bool
  | .paragraph _ => true
  | _ => false

def Frame.isList : Frame → Bool
  | .list _ _ _ => true
  | _ => false

/-- What has been read: the open frames, innermost first, what has been found, last first, and the
labels that are defined. `skipsList` tells that the next line that could begin a list does not, and
`behindHollow` that a blank line came behind a hollow item. -/
structure Reader where
  frames : List Frame
  found : List Found
  labels : List String
  skipsList : Bool
  behindHollow : Bool
deriving DecidableEq, Repr

/-! ## What a line can begin with -/

/-- A line of a paragraph, without the white space before it. -/
def textLine (c : Cursor) : TextLine :=
  let blanks := c.rest.takeWhile isWhite
  ⟨blanks.getLast?.getD c.before, c.rest.drop blanks.length⟩

/-- The text of a heading that a line with number signs makes, without the number signs at its
end. -/
def numberSigns? (line : List Char) : Option (List Char) :=
  let level := (line.takeWhile (· == '#')).length
  let behind := line.drop level
  if level == 0 || 6 < level then none
  else if behind.isEmpty then some []
  else if !behind.head?.any isWhite then none
  else
    let text := trimEnd (trimStart behind)
    let closing := (text.reverse.takeWhile (· == '#')).length
    let body := text.take (text.length - closing)
    if closing == 0 then some text
    else if body.isEmpty then some []
    else if body.getLast?.any isWhite then some body
    else some text

/-- The mark of a line that makes a heading of the paragraph before it. -/
def underline? (line : List Char) : Option Char :=
  let blanks := (line.takeWhile (· == ' ')).length
  let text := trimEnd (line.drop blanks)
  if 3 < blanks || text.isEmpty then none
  else if text.all (· == '=') then some '='
  else if text.all (· == '-') then some '-'
  else none

/-- Whether a line is a rule between blocks. -/
def isRule (cs : List Char) : Bool :=
  match cs.filter (!isWhite ·) with
  | c :: rest => (c == '*' || c == '-' || c == '_') && rest.all (· == c) && 2 ≤ rest.length
  | [] => false

/-- The opening fence of a line: its mark, its length and what is written behind it. A single byte
at the end of the document does not count. -/
def openFence? (line : List Char) : Option (Char × Nat × List Char) :=
  match line with
  | c :: _ =>
    let length := (line.takeWhile (· == c)).length
    let behind := line.drop length
    let bytes := behind.foldl (· + ·.utf8Size) (0 : Nat)
    let info := if bytes ≤ 1 then [] else trimEnd (trimStart behind)
    if (c == codeMark || c == '~') && 3 ≤ length && !(c == codeMark && info.contains codeMark) then
      some (c, length, info)
    else none
  | [] => none

/-- The marker of a list item: where it ends, the mark that lists of a kind have in common, the
number of an ordered item, and what is behind it. -/
structure Marker where
  stop : Nat
  mark : Char
  number : Option Nat
  behind : List Char
deriving DecidableEq, Repr

/-- The marker that a line begins with. A blank or the end of the line stands behind it. -/
def marker? (line : List Char) : Option Marker :=
  let blanks := (line.takeWhile (· == ' ')).length
  let text := line.drop blanks
  let digits := text.takeWhile Char.isDigit
  let isOver (behind : List Char) : Bool := match behind with
    | [] => true
    | c :: _ => c == ' ' || c == '\t' || c == '\n'
  match text.drop digits.length with
  | c :: behind =>
    if 3 < blanks || !isOver behind then none
    else if digits.isEmpty then
      if c == '-' || c == '+' || c == '*' then some ⟨blanks + 1, c, none, behind⟩ else none
    else if digits.length ≤ 9 && (c == '.' || c == ')') then
      some ⟨blanks + digits.length + 1, c, (String.ofList digits).toNat?, behind⟩
    else none
  | [] => none

/-- The width of the blanks behind a marker that belong to it. Four or more further ones are
indented code. -/
def Marker.gap (m : Marker) : Nat :=
  let width := (indentOf m.stop m.behind).1
  if isBlank m.behind || 4 < width then 1 else width

/-- The place behind the mark of a quote. -/
def afterQuote? (c : Cursor) : Option Cursor :=
  let (width, count) := c.indent
  if 3 < width || (c.text.drop count).head? != some '>' then none
  else
    let c := c.advance (count + 1)
    match c.rest with
    | ' ' :: _ => some (c.advance 1)
    | '\t' :: _ => some ((c.advance 1).withLeft (tabWidth c.column - 1))
    | _ => some c

/-! ## Paragraphs -/

/-- The labels that a paragraph defines, and the lines that are left of it. The lines come first
line first. -/
def withoutDefinitions (lines : List TextLine) : List String × List TextLine :=
  let found := definitions (lines.flatMap (·.text))
  let isLeft (number : Nat) : Bool :=
    !found.any fun d => d.firstLine ≤ number && number < d.lastLine
  (found.map (·.label), (lines.zipIdx.filter fun (_, number) => isLeft number).map (·.1))

/-- The last line does not end with white space. -/
def trimLast : List TextLine → List TextLine
  | [] => []
  | line :: rest => { line with text := trimEnd line.text } :: rest

/-! ## Opening -/

/-- What is known while a line opens frames: what has been read, the frames that are kept, the
frames that are not continued, both innermost first, and whether the line has opened anything. -/
structure Opening where
  reader : Reader
  kept : List Frame
  stale : List Frame
  isFresh : Bool
deriving DecidableEq, Repr

namespace Opening

def last? (o : Opening) : Option Frame :=
  if o.isFresh then o.kept.head? else (o.stale ++ o.kept).head?

/-- Whether the innermost frame is a paragraph, right in the frame in which the line goes on. -/
def isInParagraph (o : Opening) : Bool :=
  !o.isFresh && match o.stale with
    | [.paragraph _] => true
    | _ => false

/-- Opens a frame. An item with something in it is not hollow. -/
def add (o : Opening) (f : Frame) : Opening :=
  let kept := match o.kept with
    | .item :: .list mark offset _ :: rest => .item :: .list mark offset false :: rest
    | kept => kept
  { o with kept := f :: kept, isFresh := true }

/-- Closes the frames that are not continued. -/
def close (o : Opening) : Reader :=
  let labels := match o.stale with
    | .paragraph lines :: _ => (withoutDefinitions lines.reverse).1
    | _ => []
  { o.reader with frames := o.kept, labels := o.reader.labels ++ labels }

/-- The line opens nothing more. If it opened nothing, it may continue a paragraph. -/
def finish (o : Opening) (canContinue : Bool) (c : Cursor) : Reader :=
  match o.isFresh || !canContinue || c.isBlank, o.stale with
  | false, .paragraph lines :: rest =>
    { o.reader with frames := .paragraph (textLine c :: lines) :: rest ++ o.kept }
  | _, _ => o.close

/-- Opens a frame that is complete. -/
def complete (o : Opening) (found : List Found) : Reader :=
  (({ o with reader := { o.reader with found := found ++ o.reader.found } }).add .complete).close

/-- Opens an item, and the place where the line goes on in it. -/
def item? (o : Opening) (c : Cursor) (m : Marker) : Opening × Option Cursor :=
  let kept := match o.kept with
    | .list mark _ _ :: rest => .list mark (m.stop + m.gap) true :: rest
    | kept => kept
  let reader := { o.reader with behindHollow := false }
  let o : Opening := ⟨reader, .item :: kept, o.stale, true⟩
  if isBlank m.behind then (o, none)
  else match afterIndent? m.stop m.gap m.behind with
    | some (count, left) => (o, some ((c.advance (m.stop + count)).withLeft left))
    | none => (o, none)

/-- Reads what a line begins. `canContinue` tells whether it may continue a paragraph. -/
def read : (fuel : Nat) → Opening → (canContinue : Bool) → Cursor → Reader
  | 0, o, _, _ => o.close
  | fuel + 1, o, canContinue, c =>
    let (width, count) := c.indent
    let line := c.text.drop count
    let mustContinue := canContinue && !o.isFresh
    let free (o : Opening) : Reader :=
      if mustContinue || c.isBlank then o.finish canContinue c
      else (o.add (.paragraph [textLine c])).close
    match c.text, line with
    | [], _ => o.finish canContinue c
    | '\n' :: _, _ => o.finish canContinue c
    | _, [] => o.finish canContinue c
    | text, mark :: _ =>
      if 3 < width then
        if mustContinue || c.isBlank then o.finish canContinue c else (o.add .code).close
      else if (mark == '=' || mark == '-') && o.isInParagraph && (underline? text).isSome then
        match o.stale with
        | .paragraph lines :: stale =>
          let (labels, lines) := withoutDefinitions (trimLast lines).reverse
          let reader := { o.reader with labels := o.reader.labels ++ labels }
          let o : Opening := { o with reader, stale }
          if lines.isEmpty then read fuel o false c else o.complete [.heading lines]
        | _ => o.close
      else if isRule line then o.complete []
      else if mark == '-' || mark == '+' || mark == '*' || mark.isDigit then
        let isSkipped := (o.last?.any Frame.isList) || o.reader.skipsList
        let opensList (m : Marker) : Bool :=
          !isSkipped && !(o.isInParagraph && (m.number.any (· != 1) || isBlank m.behind))
        let o := if isSkipped then { o with reader := { o.reader with skipsList := false } } else o
        match marker? text with
        | none => free o
        | some m =>
          if opensList m then
            let reader := { o.reader with behindHollow := false }
            read fuel (({ o with reader }).add (.list m.mark 0 true)) canContinue c
          else if o.kept.head?.any Frame.isList then
            match o.item? c m with
            | (o, some c) => read fuel o canContinue c
            | (o, none) => o.close
          else free o
      else if mark == '#' then
        match numberSigns? line with
        | some [] => o.complete [.heading []]
        | some text => o.complete [.heading [⟨'\n', text⟩]]
        | none => free o
      else if mark == codeMark || mark == '~' then
        match openFence? line with
        | some (mark, length, info) =>
          let reader := { o.reader with found := .fence info [] none :: o.reader.found }
          (({ o with reader }).add (.fence mark length count)).close
        | none => free o
      else if mark == '>' then
        match afterQuote? c with
        | some c => read fuel (o.add .quote) canContinue c
        | none => free o
      else if mark == '<' then
        let isPlain := (text.take count).all (· == ' ')
        match if isPlain then markupEnd? (o.last?.any Frame.isParagraph) line else none with
        | some ending =>
          let isMet := ending != .blankLine && ending.isMet text
          (o.add (.markup ending isMet)).close
        | none => free o
      else free o

end Opening

/-! ## Continuing -/

namespace Reader

def initial : Reader := ⟨[], [], [], false, false⟩

/-- Reads what a line begins in the frames that are kept. -/
def start (r : Reader) (kept stale : List Frame) (c : Cursor) : Reader :=
  let o : Opening := ⟨r, kept, stale, false⟩
  o.read (2 * c.rest.length + 8) (o.last?.any Frame.isParagraph) c

/-- Whether a line continues a list. A blank line does. One that is not indented as far as the
content of the last item has to begin another item. -/
def continuesList (r : Reader) (mark : Char) (offset : Nat) (isHollow inParagraph : Bool)
    (c : Cursor) : Bool :=
  let indent := c.indent.1
  let line := c.text
  let item? := if 4 ≤ indent then none else marker? line
  if c.isBlank then true
  else match if indent < offset || isHollow then item? else none with
    | some m =>
      let text := line.drop (m.stop - 1)
      m.mark == mark && (!isRule text || (inParagraph && underline? text == some '-'))
    | none => offset ≤ indent && !r.behindHollow

/-- The place where a line goes on in an item, and whether the item has just ended because
another one begins. -/
def continueItem (r : Reader) (offset : Nat) (isHollow : Bool) (c : Cursor) :
    Option Cursor × Bool :=
  let indent := c.indent.1
  let isEmpty := isHollow && r.behindHollow
  if c.isBlank then (some c.lineEnd, false)
  else if (isEmpty || indent < offset) && indent < 4 && (marker? c.text).isSome then (none, true)
  else if !isEmpty && indent < offset && indent < 4 then (none, false)
  else match afterIndent? c.column offset c.text with
    | some (count, left) => (some ((c.advance count).withLeft left), false)
    | none => (some c, false)

/-- Whether a line is the closing fence. -/
def closesFence (mark : Char) (length : Nat) (c : Cursor) : Bool :=
  let (width, count) := c.indent
  let text := c.text.drop count
  let run := (text.takeWhile (· == mark)).length
  width < 4 && length ≤ run && isBlank (text.drop run)

/-- The line of content that a fence takes from a line: without as many blanks as stand before
the opening fence, or without any if there are fewer. -/
def fenceContent (indent : Nat) (c : Cursor) : List Char :=
  let behind? := if indent ≤ c.left then some (0, c.left - indent)
    else afterIndent? (c.column + c.left) (indent - c.left) c.rest
  let line := match behind? with
    | some (count, left) => List.replicate left ' ' ++ c.rest.drop count
    | none =>
      let blanks := (c.text.takeWhile fun d => d == ' ' || d == '\t').length
      match c.text.drop blanks with
      | [] => c.rest
      | '\n' :: _ => c.rest
      | _ => c.rest.drop blanks
  if line.isEmpty || line.getLast? == some '\n' then line else line ++ ['\n']

/-- Adds a line to the content of the last fence. -/
def addContent (r : Reader) (number : Nat) (line : List Char) : Reader :=
  match r.found with
  | .fence info lines firstLine :: rest =>
    { r with found := .fence info (line :: lines) (firstLine.or (some number)) :: rest }
  | _ => r

/-- Continues frames from the outermost one on. -/
def continueFrames (number : Nat) (inParagraph : Bool) :
    Reader → (kept frames : List Frame) → Cursor → Reader
  | r, kept, [], _ => { r with frames := kept }
  | r, kept, frame :: rest, c =>
    let stop (r : Reader) (c : Cursor) : Reader := r.start kept (frame :: rest).reverse c
    let goOn (r : Reader) (c : Cursor) : Reader :=
      if rest.isEmpty then r.start (frame :: kept) [] c
      else continueFrames number inParagraph r (frame :: kept) rest c
    let stay (r : Reader) : Reader := { r with frames := frame :: kept }
    if c.rest.isEmpty then (Opening.mk r [] (frame :: rest).reverse false).close
    else match frame with
      | .quote => match afterQuote? c with
        | some c => goOn r c
        | none => stop r c
      | .list mark offset isHollow =>
        let r := if c.isBlank && isHollow then { r with behindHollow := true } else r
        if r.continuesList mark offset isHollow inParagraph c then goOn r c else stop r c
      | .item =>
        let (offset, isHollow) := match kept with
          | .list _ offset isHollow :: _ => (offset, isHollow)
          | _ => (0, false)
        match r.continueItem offset isHollow c with
        | (some c, _) => goOn r c
        | (none, isNext) => stop { r with skipsList := r.skipsList || isNext } c
      | .paragraph _ => stop r c
      | .code =>
        if c.isBlank || 4 ≤ c.indent.1 then stay r else stop r c
      | .fence mark length indent =>
        if closesFence mark length c then stop r c.lineEnd
        else stay (r.addContent number (fenceContent indent c))
      | .markup ending isMet =>
        if isMet then stop r c
        else if ending.isMet c.text then stop r c.lineEnd
        else stay r
      | .complete => stop r c

def line (r : Reader) (number : Nat) (text : List Char) : Reader :=
  if r.frames.isEmpty then
    if isBlank text then r else r.start [] [] (.start text)
  else
    let inParagraph := r.frames.head?.any Frame.isParagraph
    r.continueFrames number inParagraph [] r.frames.reverse (.start text)

def lines (r : Reader) (number : Nat) : List (List Char) → Reader
  | [] => r
  | text :: rest => (r.line number text).lines (number + 1) rest

def close (r : Reader) : Reader := (Opening.mk r [] r.frames false).close

end Reader

/-- The lines of a text, with their line feeds. -/
def splitLines (text : List Char) : List (List Char) :=
  match (text.splitOn '\n').reverse with
  | [] => []
  | last :: rest =>
    rest.reverse.map (· ++ ['\n']) ++ (if last.isEmpty then [] else [last])

def Found.block (labels : List String) : Found → Block
  | .heading lines => .heading (plainText labels lines)
  | .fence info lines firstLine =>
    .fence ⟨String.ofList (info.takeWhile (· != ' ')), String.ofList lines.reverse.flatten,
      firstLine.getD 1⟩

/-- The headings and the fenced blocks of a document, in order. -/
def blocks (text : List Char) : List Block :=
  let r := (Reader.initial.lines 1 (splitLines text)).close
  r.found.reverse.map (Found.block r.labels)

end Oberlet.Markdown
