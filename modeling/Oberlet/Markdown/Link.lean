import Oberlet.Markdown.Cursor
import Oberlet.Text.Folded

/-!
# Links
-/

namespace Oberlet.Markdown

/-- Visible characters of ASCII but letters and digits. -/
def isMark (c : Char) : Bool := 0x20 < c.toNat && c.toNat < 0x7F && !c.isAlphanum

/-- The text up to a closing mark, and what is behind the mark. A mark behind a backslash does not
count, and the opening mark must not stand in the text. -/
def upTo? (opening closing : Char) : List Char → Option (List Char × List Char)
  | [] => none
  | '\\' :: d :: rest =>
    if isMark d then (upTo? opening closing rest).map fun (text, behind) =>
      ('\\' :: d :: text, behind)
    else (upTo? opening closing (d :: rest)).map fun (text, behind) => ('\\' :: text, behind)
  | c :: rest =>
    if c == closing then some ([], rest)
    else if c == opening then none
    else (upTo? opening closing rest).map fun (text, behind) => (c :: text, behind)

/-- What is behind a destination in angle brackets. -/
def afterBracketed? : List Char → Option (List Char)
  | [] => none
  | '\\' :: d :: rest => if isMark d then afterBracketed? rest else afterBracketed? (d :: rest)
  | c :: rest => if c == '\n' then none else if c == '>' then some rest else afterBracketed? rest

/-- What is behind a destination without brackets, within a number of open parentheses. -/
def afterPlain (depth : Nat) : List Char → List Char
  | [] => []
  | '\\' :: d :: rest => if isMark d then afterPlain depth rest else afterPlain depth (d :: rest)
  | c :: rest =>
    if isWhite c then c :: rest
    else if c == '(' then afterPlain (depth + 1) rest
    else if c == ')' then if depth == 0 then c :: rest else afterPlain (depth - 1) rest
    else afterPlain depth rest

def afterDestination? (cs : List Char) : Option (List Char) :=
  match trimStart cs with
  | '<' :: rest => afterBracketed? rest
  | cs =>
    let rest := afterPlain 0 cs
    if rest.length == cs.length then none else some rest

/-- The mark that closes a title. -/
def titleEnd? (opening : Char) : Option Char :=
  if opening == '"' || opening == '\'' then some opening
  else if opening == '(' then some ')'
  else none

/-- What is behind the destination and the title of a link, in parentheses of which the first has
been read. -/
def afterTarget? (cs : List Char) : Option (List Char) :=
  match trimStart cs with
  | ')' :: rest => some rest
  | cs => do
    match trimStart (← afterDestination? cs) with
    | ')' :: rest => return rest
    | opening :: rest =>
      let (_, behind) ← upTo? opening (← titleEnd? opening) rest
      match trimStart behind with
      | ')' :: rest => return rest
      | _ => none
    | [] => none

/-- White space becomes single blanks. -/
def joinWords : List Char → List Char
  | [] => []
  | [c] => [if isWhite c then ' ' else c]
  | c :: d :: rest =>
    if isWhite c then if isWhite d then joinWords (d :: rest) else ' ' :: joinWords (d :: rest)
    else c :: joinWords (d :: rest)

/-- Labels are the same if they differ only in white space and in the case of letters. -/
def label (text : List Char) : String :=
  String.ofList (joinWords (Text.folded (trimEnd (trimStart text))))

/-! ## Definitions -/

/-- A label with the lines that define it, and the text behind them. -/
structure Definition where
  label : String
  firstLine : Nat
  lastLine : Nat
  rest : List Char
deriving DecidableEq, Repr

/-- The number of the line in which a rest of the text begins. -/
def lineAt (whole rest : List Char) : Nat :=
  (whole.take (whole.length - rest.length)).count '\n'

/-- The definition with which a text goes on. A title that is not alone at the end of its line is
not part of it, if the title begins a line. -/
def definition? (whole cs : List Char) : Option Definition :=
  match trimStart cs with
  | '[' :: rest => do
    let (text, rest) ← upTo? '[' ']' rest
    if isBlank text then none
    else match rest with
      | ':' :: rest =>
        let behind ← afterDestination? rest
        let firstLine := lineAt whole (trimStart cs)
        let lastLine := lineAt whole behind
        let isAlone := isBlank (behind.takeWhile (· != '\n'))
        let title := trimStart behind
        let bare : Option Definition :=
          if isAlone then some ⟨label text, firstLine, lastLine + 1, title⟩ else none
        match title.head?, title.head?.bind titleEnd? with
        | some opening, some closing =>
          if title.length == behind.length then none
          else match upTo? opening closing title.tail with
            | none => bare.map fun d => { d with rest := [] }
            | some (_, rest) =>
              if isBlank (rest.takeWhile (· != '\n')) then
                some ⟨label text, firstLine, lineAt whole rest + 1, rest⟩
              else bare.map fun d => { d with lastLine := max lastLine (firstLine + 1), rest }
        | _, _ => bare
      | _ => none
  | _ => none

def definitionsFrom (whole : List Char) : (fuel : Nat) → List Char → List Definition
  | 0, _ => []
  | fuel + 1, cs =>
    match definition? whole cs with
    | some d => d :: definitionsFrom whole fuel d.rest
    | none => []

/-- The definitions at the beginning of a text. -/
def definitions (text : List Char) : List Definition := definitionsFrom text (text.length + 1) text

end Oberlet.Markdown
