import Oberlet.Diagnostic
import Oberlet.Text.Letter
import Oberlet.Token.Basic

/-!
# Reading tokens from text

Reading a token first skips blanks and comments, then takes the longest lexeme that begins at the
next character. A comment stands between `(*` and `*)` and may contain others.
-/

namespace Oberlet

/-- Where reading stands. The characters collected for a malformed lexeme are `pending`: reading on
puts them in front of the next value. -/
structure Lexer where
  rest : List Char
  pos : Position
  pending : List Char
deriving DecidableEq, Repr

namespace Lexer

def ofSource (source : List Char) : Lexer := ⟨source, .origin, []⟩

/-! ## Blanks and comments -/

def isBlank (c : Char) : Bool :=
  c == ' ' || c == '\n' || c == '\t' || c == '\r' || c.toNat == 0x0B || c.toNat == 0x0C

/-- Where skipping blanks and comments stopped: before a lexeme or the end of the text, having
passed a comment or not, or at the end of the text inside a comment. -/
inductive Gap
  | done (rest : List Char) (pos : Position) (commented : Bool)
  | unclosed (start stop : Position)
deriving DecidableEq, Repr

/-- Skips blanks and comments. `depth` counts the comments that are open, and `start` is where the
outermost of them began. -/
def skipGap (depth : Nat) (start : Position) (commented : Bool) :
    List Char → Position → Gap
  | [], pos => match depth with
    | 0 => .done [] pos commented
    | _ + 1 => .unclosed start pos
  | '(' :: '*' :: rest, pos =>
    let inside := (pos.after '(').after '*'
    match depth with
    | 0 => skipGap 1 pos true rest inside
    | depth + 1 => skipGap (depth + 2) start commented rest inside
  | '*' :: ')' :: rest, pos => match depth with
    | 0 => .done ('*' :: ')' :: rest) pos commented
    | depth + 1 => skipGap depth start commented rest ((pos.after '*').after ')')
  | c :: rest, pos => match depth with
    | 0 => if isBlank c then skipGap 0 start commented rest (pos.after c)
      else .done (c :: rest) pos commented
    | depth + 1 => skipGap (depth + 1) start commented rest (pos.after c)

/-! ## Lexemes -/

/-- What reading one lexeme gives: its kind or what is wrong with it, the characters collected,
and the place behind it. -/
structure Reading where
  outcome : Except Diagnostic.Cause Token.Kind
  text : List Char
  rest : List Char
  pos : Position

/-- A keyword or an identifier. -/
def readWord (pending cs : List Char) (pos : Position) : Reading :=
  let word := cs.takeWhile Text.isIdentRest
  let text := pending ++ word
  { outcome := .ok ((Token.Kind.ofKeyword? (String.ofList text)).getD .ident)
    text := text
    rest := cs.dropWhile Text.isIdentRest
    pos := pos.afterAll word }

def splitSign : List Char → List Char × List Char
  | '-' :: rest => (['-'], rest)
  | '+' :: rest => (['+'], rest)
  | cs => ([], cs)

/-- The part of a number behind its fraction: an exponent, or nothing. -/
def readExponent (text cs : List Char) (pos : Position) : Reading :=
  match cs with
  | mark :: rest =>
    if mark == 'E' || mark == 'e' then
      let (sign, digitsOn) := splitSign rest
      let digits := digitsOn.takeWhile Char.isDigit
      let text := text ++ mark :: sign
      let pos := (pos.after mark).afterAll sign
      if digits.isEmpty then ⟨.error .incompleteNumber, text, digitsOn, pos⟩
      else ⟨.ok .realLit, text ++ digits, digitsOn.dropWhile Char.isDigit, pos.afterAll digits⟩
    else ⟨.ok .realLit, text, cs, pos⟩
  | [] => ⟨.ok .realLit, text, [], pos⟩

/-- A number without a sign. -/
def readNumber (pending cs : List Char) (pos : Position) : Reading :=
  let whole := cs.takeWhile Char.isDigit
  let text := pending ++ whole
  let pos := pos.afterAll whole
  match cs.dropWhile Char.isDigit with
  | '.' :: rest =>
    let fraction := rest.takeWhile Char.isDigit
    let text := text ++ ['.']
    let pos := pos.after '.'
    if fraction.isEmpty then ⟨.error .incompleteNumber, text, rest, pos⟩
    else readExponent (text ++ fraction) (rest.dropWhile Char.isDigit) (pos.afterAll fraction)
  | rest => ⟨.ok .intLit, text, rest, pos⟩

/-- What an escape sequence stands for. -/
def unescape? : Char → Option Char
  | 'n' => some '\n'
  | 't' => some '\t'
  | '"' => some '"'
  | '\\' => some '\\'
  | _ => none

/-- The rest of a string literal behind its opening quote. The text is the decoded content. -/
def readString : List Char → Position → Reading
  | [], pos => ⟨.error .unclosedString, [], [], pos⟩
  | '"' :: rest, pos => ⟨.ok .stringLit, [], rest, pos.after '"'⟩
  | ['\\'], pos => ⟨.error .missingEscape, [], [], pos.after '\\'⟩
  | '\\' :: c :: rest, pos =>
    let pos := (pos.after '\\').after c
    match unescape? c with
    | some decoded =>
      let tail := readString rest pos
      { tail with text := decoded :: tail.text }
    | none => ⟨.error (.unknownEscape c), [], rest, pos⟩
  | '\n' :: rest, pos => ⟨.error .newlineInString, [], '\n' :: rest, pos⟩
  | c :: rest, pos =>
    let tail := readString rest (pos.after c)
    { tail with text := c :: tail.text }

/-- Lengthens a symbol as long as the longer text is a symbol too. -/
def extendSymbol (kind : Token.Kind) (text : List Char) : List Char → Position → Reading
  | [], pos => ⟨.ok kind, text, [], pos⟩
  | c :: rest, pos =>
    match Token.Kind.ofSymbol? (text ++ [c]) with
    | some longer => extendSymbol longer (text ++ [c]) rest (pos.after c)
    | none => ⟨.ok kind, text, c :: rest, pos⟩

/-- The longest symbol, or a character that begins no lexeme. -/
def readSymbol (pending : List Char) (c : Char) (rest : List Char) (pos : Position) : Reading :=
  let text := pending ++ [c]
  let pos := pos.after c
  match Token.Kind.ofSymbol? text with
  | some kind => extendSymbol kind text rest pos
  | none => ⟨.error (.unknownRune (String.ofList text)), text, rest, pos⟩

/-- The lexeme at the beginning of a text that starts with no blank and no comment. -/
def readLexeme (pending : List Char) : List Char → Position → Reading
  | [], pos => ⟨.ok .eof, pending, [], pos⟩
  | '(' :: rest, pos => ⟨.ok .lparen, pending ++ ['('], rest, pos.after '('⟩
  | '"' :: rest, pos =>
    let tail := readString rest (pos.after '"')
    { tail with text := pending ++ tail.text }
  | c :: rest, pos =>
    if c.isDigit then readNumber pending (c :: rest) pos
    else if Text.isIdentStart c then readWord pending (c :: rest) pos
    else readSymbol pending c rest pos

/-! ## Tokens -/

def next (lexer : Lexer) : Except Diagnostic Token × Lexer :=
  match skipGap 0 lexer.pos false lexer.rest lexer.pos with
  | .unclosed start stop =>
    (.error (.on (.between start stop) .unclosedComment), ⟨[], stop, []⟩)
  | .done rest start commented =>
    let reading := readLexeme (if commented then [] else lexer.pending) rest start
    let span := Span.between start reading.pos
    match reading.outcome with
    | .ok kind =>
      (.ok ⟨kind, String.ofList reading.text, span⟩, ⟨reading.rest, reading.pos, []⟩)
    | .error cause =>
      (.error (.on span cause), ⟨reading.rest, reading.pos, reading.text⟩)

end Lexer

/-- The tokens of a text in order. They end with the end-of-file token, or with the error that
reading on would meet. -/
structure TokenStream where
  tokens : List Token
  fault : Option Diagnostic
deriving DecidableEq, Repr

namespace TokenStream

/-- Reads tokens until the end of the text or the first error, at most `count` of them. -/
def read : (count : Nat) → Lexer → TokenStream
  | 0, _ => ⟨[], none⟩
  | count + 1, lexer =>
    match lexer.next with
    | (.error fault, _) => ⟨[], some fault⟩
    | (.ok token, after) =>
      if token.kind == .eof then ⟨[token], none⟩
      else
        let stream := read count after
        { stream with tokens := token :: stream.tokens }

/-- All tokens of a text. Every token but the last uses up a character, so the number of
characters bounds their number. -/
def ofSource (source : List Char) : TokenStream := read (source.length + 1) (.ofSource source)

end TokenStream

end Oberlet
