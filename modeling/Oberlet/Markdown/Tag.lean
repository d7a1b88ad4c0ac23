import Oberlet.Markdown.Cursor

/-!
# Tags
-/

namespace Oberlet.Markdown

def codeMark : Char := '\x60'

def lower (cs : List Char) : String := String.ofList (cs.map Char.toLower)

/-- What is behind the first place of a word. -/
def afterFirst? (word : String) : List Char → Option (List Char)
  | [] => if word.isEmpty then some [] else none
  | c :: rest =>
    if word.toList.isPrefixOf (c :: rest) then some ((c :: rest).drop word.length)
    else afterFirst? word rest

/-! ## Tags in a text -/

def tagName? : List Char → Option (List Char × List Char)
  | c :: rest =>
    let isPart (c : Char) : Bool := c.isAlphanum || c == '-'
    if c.isAlpha then some (c :: rest.takeWhile isPart, rest.dropWhile isPart) else none
  | [] => none

/-- What is behind the value of an attribute. -/
def afterValue? : List Char → Option (List Char)
  | '"' :: rest => match rest.dropWhile (· != '"') with
    | _ :: rest => some rest
    | [] => none
  | '\'' :: rest => match rest.dropWhile (· != '\'') with
    | _ :: rest => some rest
    | [] => none
  | cs =>
    let isPart (c : Char) : Bool :=
      0x20 < c.toNat && c != '"' && c != '\'' && c != '=' && c != '<' && c != '>' && c != codeMark
    match cs.dropWhile isPart with
    | rest => if rest.length == cs.length then none else some rest

/-- What is behind white space and an attribute. -/
def afterAttribute? (cs : List Char) : Option (List Char) :=
  match cs, cs.dropWhile isWhite with
  | first :: _, c :: rest =>
    if isWhite first && (c.isAlpha || c == '_' || c == ':') then
      let behind := rest.dropWhile fun c =>
        c.isAlphanum || c == '_' || c == '.' || c == ':' || c == '-'
      match behind.dropWhile isWhite with
      | '=' :: more => afterValue? (more.dropWhile isWhite)
      | _ => some behind
    else none
  | _, _ => none

def afterAttributes : (fuel : Nat) → List Char → List Char
  | 0, cs => cs
  | fuel + 1, cs => match afterAttribute? cs with
    | some rest => afterAttributes fuel rest
    | none => cs

def afterTagEnd? : List Char → Option (List Char)
  | '/' :: '>' :: rest => some rest
  | '>' :: rest => some rest
  | _ => none

/-- What is behind an opening or closing tag. -/
def afterTag? : List Char → Option (List Char)
  | '<' :: '/' :: rest => do
    let (_, rest) ← tagName? rest
    match rest.dropWhile isWhite with
    | '>' :: rest => return rest
    | _ => none
  | '<' :: rest => do
    let (_, rest) ← tagName? rest
    afterTagEnd? ((afterAttributes rest.length rest).dropWhile isWhite)
  | _ => none

/-- What is behind a comment, an instruction, a declaration or character data. -/
def afterSpecial? (cs : List Char) : Option (List Char) :=
  match cs with
  | '<' :: '!' :: '-' :: '-' :: '>' :: rest => some rest
  | '<' :: '!' :: '-' :: '-' :: '-' :: '>' :: rest => some rest
  | '<' :: '!' :: '-' :: '-' :: rest => afterFirst? "-->" rest
  | '<' :: '?' :: rest => afterFirst? "?>" ('?' :: rest)
  | '<' :: '!' :: '[' :: rest =>
    if "CDATA[".toList.isPrefixOf rest then afterFirst? "]]>" rest else none
  | '<' :: '!' :: c :: rest => if c.isUpper then afterFirst? ">" rest else none
  | _ => none

/-! ## Links in angle brackets -/

def afterMail? (cs : List Char) : Option (List Char) :=
  let isNamePart (c : Char) : Bool :=
    c.isAlphanum || c ∈ ".!#$%&'*+/=?^_\x60\x7b|\x7d~-".toList
  match cs.dropWhile isNamePart with
  | '@' :: rest => if cs.head?.any isNamePart then labels rest.length rest else none
  | _ => none
where
  /-- What is behind a label of a domain: letters and digits, and hyphens between them. -/
  label? (cs : List Char) : Option (List Char) :=
    let run := (cs.takeWhile fun c => c.isAlphanum || c == '-').take 63
    let label := (run.reverse.dropWhile (· == '-')).reverse
    if label.head?.any Char.isAlphanum then some (cs.drop label.length) else none
  /-- What is behind labels with points between them. -/
  labels : (fuel : Nat) → List Char → Option (List Char)
    | 0, _ => none
    | fuel + 1, cs => do
      let rest ← label? cs
      match rest with
      | '.' :: more => return (labels fuel more).getD rest
      | _ => return rest

def afterAddress? (cs : List Char) : Option (List Char) :=
  let scheme := cs.takeWhile fun c => c.isAlphanum || c == '+' || c == '.' || c == '-'
  match cs.drop scheme.length with
  | ':' :: rest =>
    if scheme.head?.any Char.isAlpha && 2 ≤ scheme.length && scheme.length ≤ 33 then
      some (rest.dropWhile fun c => c != '<' && c != '>' && 0x20 < c.toNat)
    else none
  | _ => none

def afterLink? : List Char → Option (List Char)
  | '<' :: rest => do
    match ← (afterMail? rest).or (afterAddress? rest) with
    | '>' :: rest => return rest
    | _ => none
  | _ => none

/-- What is behind a link in angle brackets or a tag. -/
def afterMarkup? (cs : List Char) : Option (List Char) :=
  ((afterLink? cs).or (afterTag? cs)).or (afterSpecial? cs)

/-! ## Blocks of markup -/

/-- What ends a block of markup: a line with one of some words, or a blank line. -/
inductive MarkupEnd
  | words (words : List String)
  | blankLine
deriving DecidableEq, Repr

def MarkupEnd.isMet (line : List Char) : MarkupEnd → Bool
  | .words ws => ws.any fun word => (afterFirst? word (line.map Char.toLower)).isSome
  | .blankLine => isBlank line

/-- The tags whose content is taken as it is, up to a closing tag. -/
def rawTags : List String := ["script", "pre", "style", "textarea"]

/-- The tags that begin a block wherever they stand. -/
def blockTags : List String :=
  ["address", "article", "aside", "base", "basefont", "blockquote", "body", "caption", "center",
   "col", "colgroup", "dd", "details", "dialog", "dir", "div", "dl", "dt", "fieldset",
   "figcaption", "figure", "footer", "form", "frame", "frameset", "h1", "h2", "h3", "h4", "h5",
   "h6", "head", "header", "hr", "html", "iframe", "legend", "li", "link", "main", "menu",
   "menuitem", "meta", "nav", "noframes", "ol", "optgroup", "option", "p", "param", "search",
   "section", "summary", "table", "tbody", "td", "tfoot", "th", "thead", "title", "tr", "track",
   "ul"]

/-- Whether the name of a tag is over, where one of some characters or the end of the tag or of
the line follows. -/
def isNameEnd (isBehind : Char → Bool) (cs : List Char) : Bool :=
  match cs with
  | [] => true
  | '/' :: '>' :: _ => true
  | c :: _ => isBehind c || c == '>' || c == '\n' || cs == ['\r', '\n']

def isLineEnd (cs : List Char) : Bool :=
  let rest := cs.dropWhile (· == ' ')
  rest == [] || rest == ['\n'] || rest == ['\r', '\n']

/-- What ends the block of markup that begins with a tag. A tag that is not one of the block tags
has to be whole and alone in its line, and cannot stand in the middle of a paragraph. -/
def tagEnd? (inParagraph : Bool) (cs : List Char) : Option MarkupEnd := do
  let (isClosing, isPadded, cs) := match cs with
    | '/' :: rest => (true, rest.head? == some ' ', rest.dropWhile (· == ' '))
    | _ => (false, false, cs)
  let (name, behind) ← tagName? cs
  let attributes := afterAttributes behind.length behind
  let isWhole := (afterTagEnd? (attributes.dropWhile (· == ' '))).any isLineEnd
  if lower name ∈ blockTags then
    if isWhole || isNameEnd (· == ' ') behind then return .blankLine else none
  else
    let isBad := isClosing && !isPadded && attributes.length < behind.length
    if isWhole && !inParagraph && !isBad && lower name ∉ ["script", "style", "pre"] then
      return .blankLine
    else none

/-- What ends the block of markup that a line begins. -/
def markupEnd? (inParagraph : Bool) (line : List Char) : Option MarkupEnd :=
  match line with
  | '<' :: '!' :: '-' :: '-' :: _ => some (.words ["-->"])
  | '<' :: '?' :: _ => some (.words ["?>"])
  | '<' :: '!' :: '[' :: rest =>
    if "CDATA[".toList.isPrefixOf rest then some (.words ["]]>"]) else none
  | '<' :: '!' :: c :: _ => if c.isUpper then some (.words [">"]) else none
  | '<' :: rest =>
    match tagName? rest with
    | some (name, behind) =>
      if lower name ∈ rawTags && isNameEnd (fun c => isWhite c || c == '\x0c') behind then
        some (.words (rawTags.map fun tag => "</" ++ tag ++ ">"))
      else tagEnd? inParagraph rest
    | none => tagEnd? inParagraph rest
  | _ => none

end Oberlet.Markdown
