/-!
# Tokens of a configuration file

What a character begins depends on whether an entry or a value is expected: behind a line break an
entry is expected, unless the innermost open bracket is that of an array.
-/

namespace Oberlet.Toml

/-- A part of a text. Numbers, dates and the names of entries and headers are kept as they are
written, but in the name of an entry the strings are read. The tokens of a text end with `finish`,
or with `bad` where the text cannot be cut. -/
inductive Token
  | key (text : List Char)
  | header (text : List Char)
  | equals
  | comma
  | openArray
  | closeArray
  | openFields
  | closeFields
  | openList
  | closeList
  | string (text : String)
  | boolean (value : Bool)
  | special (literal : String)
  | integer (literal : List Char)
  | float (literal : List Char)
  | date (literal : List Char)
  | time (literal : List Char)
  | offset (literal : List Char)
  | bad
  | finish
deriving DecidableEq, Repr

/-! ## Characters -/

def isBlank (c : Char) : Bool := c == ' ' || c == '\t'

def isBreak (c : Char) : Bool := c == '\n' || c == '\r'

/-- The characters of a name without quotes. -/
def isBare (c : Char) : Bool :=
  ('a' ≤ c && c ≤ 'z') || ('A' ≤ c && c ≤ 'Z') || c.isDigit || c == '_' || c == '-'

def isHexDigit (c : Char) : Bool :=
  c.isDigit || ('a' ≤ c && c ≤ 'f') || ('A' ≤ c && c ≤ 'F')

def hexDigitValue (c : Char) : Nat :=
  if c.isDigit then c.toNat - '0'.toNat
  else if 'a' ≤ c then c.toNat - 'a'.toNat + 10
  else c.toNat - 'A'.toNat + 10

/-- What is behind a word at the beginning of a text. -/
def afterWord? (word : String) (cs : List Char) : Option (List Char) :=
  if word.toList.isPrefixOf cs then some (cs.drop word.length) else none

/-- A comment ends before the end of its line. -/
def afterComment (cs : List Char) : List Char := cs.dropWhile (· != '\n')

/-- Skips blanks, line breaks and comments, beginning in a comment or not. -/
def skipVoidFrom (inComment : Bool) : List Char → List Char
  | [] => []
  | c :: rest =>
    if inComment then skipVoidFrom (c != '\n') rest
    else if isBlank c || isBreak c then skipVoidFrom false rest
    else if c == '#' then skipVoidFrom true rest
    else c :: rest

def skipVoid (cs : List Char) : List Char := skipVoidFrom false cs

/-! ## Strings -/

/-- The character with a code given in digits. A code that no character has stands for the
replacement character. -/
def coded? (count : Nat) (cs : List Char) : Option (Char × List Char) :=
  let digits := cs.take count
  if digits.length < count || !digits.all isHexDigit then none
  else
    let code := digits.foldl (fun n c => 16 * n + hexDigitValue c) 0
    some (if h : code.isValidChar then Char.ofNatAux code h else '�', cs.drop count)

/-- The character that an escape sequence stands for. -/
def escaped? : List Char → Option (Char × List Char)
  | '"' :: rest => some ('"', rest)
  | '\\' :: rest => some ('\\', rest)
  | '/' :: rest => some ('/', rest)
  | 'n' :: rest => some ('\n', rest)
  | 't' :: rest => some ('\t', rest)
  | 'r' :: rest => some ('\r', rest)
  | 'b' :: rest => some (Char.ofNat 8, rest)
  | 'f' :: rest => some (Char.ofNat 12, rest)
  | 'u' :: rest => coded? 4 rest
  | 'U' :: rest => coded? 8 rest
  | _ => none

/-- Reads a string up to its end mark. A backslash before blanks or line breaks removes them. -/
def stringBody? (mark : String) (hasBreaks : Bool) : (fuel : Nat) → List Char →
    Option (List Char × List Char)
  | 0, _ => none
  | fuel + 1, cs =>
    match afterWord? mark cs, cs with
    | some rest, _ => some ([], rest)
    | none, [] => none
    | none, '\\' :: rest =>
      let isGap (c : Char) : Bool := isBlank c || isBreak c
      if rest.head?.any isGap then stringBody? mark hasBreaks fuel (rest.dropWhile isGap)
      else do
        let (c, rest) ← escaped? rest
        let (body, rest) ← stringBody? mark hasBreaks fuel rest
        return (c :: body, rest)
    | none, c :: rest =>
      if c.toNat < 0x20 && c != '\t' && !(hasBreaks && isBreak c) then none
      else do
        let (body, rest) ← stringBody? mark hasBreaks fuel rest
        return (c :: body, rest)

/-- Reads a string without escape sequences up to its end mark. -/
def literalBody? (mark : String) : List Char → Option (List Char × List Char)
  | [] => (afterWord? mark []).map fun rest => ([], rest)
  | c :: rest =>
    match afterWord? mark (c :: rest) with
    | some rest => some ([], rest)
    | none => (literalBody? mark rest).map fun (body, rest) => (c :: body, rest)

/-- A string of many lines does not begin with a line break. -/
def dropFirstBreak : List Char → List Char
  | '\r' :: '\n' :: rest => rest
  | '\n' :: rest => rest
  | cs => cs

/-- Reads a string of one line or of many. -/
def string? (cs : List Char) : Option (String × List Char) := do
  let body (result : Option (List Char × List Char)) : Option (String × List Char) :=
    result.map fun (body, rest) => (String.ofList body, rest)
  match cs with
  | '"' :: '"' :: '"' :: rest =>
    body (stringBody? "\"\"\"" true (rest.length + 1) (dropFirstBreak rest))
  | '"' :: rest => body (stringBody? "\"" false (rest.length + 1) rest)
  | '\'' :: '\'' :: '\'' :: rest => body (literalBody? "'''" (dropFirstBreak rest))
  | '\'' :: rest => body (literalBody? "'" rest)
  | _ => none

/-! ## Names -/

/-- Reads the text of a name before an equals sign, with its quotes. Behind a blank the name is
over unless a dot follows. -/
def keyText? : (fuel : Nat) → List Char → Option (List Char × List Char)
  | 0, _ => none
  | fuel + 1, cs =>
    let behind (read : List Char) (rest : List Char) : Option (List Char × List Char) :=
      (keyText? fuel rest).map fun (more, rest) => (read ++ more, rest)
    match cs with
    | [] => some ([], [])
    | '=' :: rest => some ([], '=' :: rest)
    | '"' :: rest => do
      let (body, rest) ← stringBody? "\"" true (rest.length + 1) rest
      behind ('"' :: body ++ ['"']) rest
    | '\'' :: rest => do
      let (body, rest) ← literalBody? "'" rest
      behind ('\'' :: body ++ ['\'']) rest
    | c :: rest =>
      if isBlank c then
        match rest.dropWhile isBlank with
        | '.' :: more => behind (' ' :: '.' :: more.takeWhile isBlank) (more.dropWhile isBlank)
        | rest => some ([], rest)
      else if isBare c || c == '.' then behind [c] rest
      else none

/-! ## Numbers -/

/-- Parts a text from the sign before it. -/
def sign : List Char → List Char × List Char
  | '+' :: rest => (['+'], rest)
  | '-' :: rest => (['-'], rest)
  | cs => ([], cs)

/-- Reads the digits, the points and the exponents of a number. A digit stands behind a point, and
one stands before it. -/
def numeral? (anyDigit : Bool) : List Char → Option (List Char × List Char)
  | [] => some ([], [])
  | c :: rest =>
    if c == '.' then
      if !anyDigit || !rest.head?.any Char.isDigit then none
      else do
        let (more, rest) ← numeral? anyDigit rest
        return ('.' :: more, rest)
    else if c == 'e' || c == 'E' then
      match rest with
      | '+' :: rest => do
        let (more, rest) ← numeral? anyDigit rest
        return ('e' :: '+' :: more, rest)
      | '-' :: rest => do
        let (more, rest) ← numeral? anyDigit rest
        return ('e' :: '-' :: more, rest)
      | rest => do
        let (more, rest) ← numeral? anyDigit rest
        return ('e' :: more, rest)
    else if c.isDigit || c == '_' then do
      let (more, rest) ← numeral? (anyDigit || c.isDigit) rest
      return (c :: more, rest)
    else some ([], c :: rest)

/-- Reads the digits of a number whose base is named. -/
def based? (base : Char) (isDigit : Char → Bool) (cs : List Char) :
    Option (Token × List Char) :=
  let isPart (c : Char) : Bool := isDigit c || c == '_'
  let literal := cs.takeWhile isPart
  if literal.isEmpty then none else some (.integer ('0' :: base :: literal), cs.dropWhile isPart)

/-- Reads an integer or a float. -/
def decimal? (cs : List Char) : Option (Token × List Char) := do
  let (mark, cs) := sign cs
  let (literal, rest) ← numeral? false cs
  if !literal.any Char.isDigit then none
  else if literal.any fun c => c == '.' || c == 'e' then return (.float (mark ++ literal), rest)
  else return (.integer (mark ++ literal), rest)

/-- Reads a number. Behind a zero at its beginning a letter names a base. -/
def number? (cs : List Char) : Option (Token × List Char) :=
  match cs with
  | '0' :: 'x' :: rest => based? 'x' isHexDigit rest
  | '0' :: 'o' :: rest => based? 'o' (fun c => '0' ≤ c && c ≤ '7') rest
  | '0' :: 'b' :: rest => based? 'b' (fun c => c == '0' || c == '1') rest
  | '0' :: c :: _ => if c.isAlpha then none else decimal? cs
  | _ => decimal? cs

/-- Reads an infinity, or what is no number. -/
def special? (cs : List Char) : Option (Token × List Char) :=
  let (mark, cs) := sign cs
  match afterWord? "inf" cs, afterWord? "nan" cs with
  | some rest, _ => some (.special (String.ofList mark ++ "inf"), rest)
  | _, some rest => some (.special (String.ofList mark ++ "nan"), rest)
  | none, none => none

/-! ## Dates and times -/

/-- Reads a text that has digits where a pattern has zeros, and otherwise is the pattern. -/
def shaped? : (pattern : List Char) → List Char → Option (List Char × List Char)
  | [], cs => some ([], cs)
  | _, [] => none
  | p :: pattern, c :: cs =>
    if (if p == '0' then c.isDigit else c == p) then
      (shaped? pattern cs).map fun (more, rest) => (c :: more, rest)
    else none

/-- Reads a time, with its fraction of a second. -/
def time? (cs : List Char) : Option (List Char × List Char) := do
  let (literal, rest) ← shaped? "00:00:00".toList cs
  match rest with
  | '.' :: fraction =>
    if fraction.head?.any Char.isDigit then
      return (literal ++ '.' :: fraction.takeWhile Char.isDigit, fraction.dropWhile Char.isDigit)
    else none
  | rest => return (literal, rest)

def offset? : List Char → Option (List Token × List Char)
  | 'Z' :: rest => some ([.offset ['Z']], rest)
  | cs =>
    match sign cs with
    | ([], cs) => some ([], cs)
    | (mark, cs) => do
      let (literal, rest) ← shaped? "00:00".toList cs
      return ([.offset (mark ++ literal)], rest)

/-- Reads a date, and the time behind it. A blank between them counts only before two digits.
Nothing else may stand directly behind a date. -/
def dateTime? (cs : List Char) : Option (List Token × List Char) := do
  let (date, rest) ← shaped? "0000-00-00".toList cs
  let joined (cs : List Char) : Option (List Token × List Char) := do
    let (literal, rest) ← time? cs
    let (zone, rest) ← offset? rest
    return (.date date :: .time literal :: zone, rest)
  match rest with
  | [] => return ([.date date], [])
  | 'T' :: more => joined more
  | ' ' :: more =>
    if (shaped? "00".toList more).isSome then joined more else return ([.date date], rest)
  | _ => none

def isTime (cs : List Char) : Bool := (shaped? "00:".toList cs).isSome

def isDate (cs : List Char) : Bool := (shaped? "0000-".toList cs).isSome

/-! ## Tokens -/

/-- Reads a value that is not in brackets. -/
def plain? (cs : List Char) : Option (List Token × List Char) :=
  let single (result : Option (Token × List Char)) : Option (List Token × List Char) :=
    result.map fun (token, rest) => ([token], rest)
  match afterWord? "true" cs, afterWord? "false" cs with
  | some rest, _ => some ([.boolean true], rest)
  | _, some rest => some ([.boolean false], rest)
  | none, none =>
    match cs with
    | [] => none
    | c :: _ =>
      if c == '"' || c == '\'' then
        single ((string? cs).map fun (text, rest) => (.string text, rest))
      else if isTime cs then single ((time? cs).map fun (literal, rest) => (.time literal, rest))
      else if isDate cs then dateTime? cs
      else if c.isDigit then single (number? cs)
      else single ((special? cs).or (if c == '+' || c == '-' then decimal? cs else none))

/-- What a text goes on with. -/
inductive Expected
  | entry
  | value
deriving DecidableEq, Repr

inductive Bracket
  | square
  | curly
deriving DecidableEq, Repr

namespace Token

/-- Cuts a text into tokens, with the brackets that are open. A header is cut into its brackets
and the text between them, wherever an entry is expected. -/
def cut : (fuel : Nat) → Expected → List Bracket → List Char → List Token
  | 0, _, _, _ => [.bad]
  | fuel + 1, .entry, nest, cs =>
    match skipVoid cs with
    | [] => [.finish]
    | '=' :: rest => .equals :: cut fuel .value nest rest
    | '\x7d' :: rest =>
      .closeFields :: (if nest.head? == some .curly then cut fuel .value nest.tail rest else [.bad])
    | '[' :: '[' :: rest =>
      let text := rest.takeWhile fun c => c != ']' && c != '['
      match rest.drop text.length with
      | ']' :: ']' :: rest => .openList :: .header text :: .closeList :: cut fuel .entry nest rest
      | _ => [.openList, .bad]
    | '[' :: rest =>
      let text := rest.takeWhile fun c => c != ']' && c != '['
      match rest.drop text.length with
      | ']' :: rest =>
        let inner := if text.isEmpty then [] else [Token.header text]
        .openArray :: inner ++ .closeArray :: cut fuel .entry nest rest
      | _ => [.openArray, .bad]
    | cs =>
      match keyText? (cs.length + 1) cs with
      | some (text, rest) => .key text :: cut fuel .entry nest rest
      | none => [.bad]
  | _ + 1, .value, _, [] => [.finish]
  | fuel + 1, .value, nest, c :: rest =>
    if isBlank c then cut fuel .value nest rest
    else if isBreak c then
      cut fuel (if nest.head? == some .square then .value else .entry) nest rest
    else if c == '#' then cut fuel .value nest (afterComment rest)
    else if c == '=' then .equals :: cut fuel .value nest rest
    else if c == ',' then
      .comma :: cut fuel (if nest.head? == some .curly then .entry else .value) nest rest
    else if c == '[' then .openArray :: cut fuel .value (.square :: nest) rest
    else if c == ']' then
      .closeArray :: (if nest.head? == some .square then cut fuel .value nest.tail rest else [.bad])
    else if c == '\x7b' then .openFields :: cut fuel .entry (.curly :: nest) rest
    else if c == '\x7d' then
      .closeFields :: (if nest.head? == some .curly then cut fuel .value nest.tail rest else [.bad])
    else
      match plain? (c :: rest) with
      | some (tokens, rest) => tokens ++ cut fuel .value nest rest
      | none => [.bad]

/-- The tokens of a text. A byte order mark before it is not part of it. -/
def ofText (cs : List Char) : List Token :=
  let cs := match cs with
    | c :: rest => if c.toNat == 0xFEFF then rest else c :: rest
    | [] => []
  cut (cs.length + 1) .entry [] cs

end Token

end Oberlet.Toml
