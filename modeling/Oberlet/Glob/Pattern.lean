import Oberlet.Text.Utf8

/-!
# File name patterns

In a pattern `*` stands for any bytes, `?` for one character, and `[a-z]` for one character of a
class. Neither `*` nor `?` stands for a slash.
-/

namespace Oberlet.Glob

/-- What stands for a part of a name: a byte, any character, or a character of a class or of its
complement. -/
inductive Item
  | byte (b : UInt8)
  | any
  | cls (isNegated : Bool) (ranges : List (Char × Char))
deriving DecidableEq, Repr

/-- What stands between two `*`. -/
abbrev Chunk := List Item

/-- A chunk at the beginning, and chunks with a `*` before each. -/
structure Pattern where
  first : Chunk
  rest : List Chunk
deriving DecidableEq, Repr

/-! ## Reading patterns -/

def slash : UInt8 := 0x2F

def isMeta (c : Char) : Bool := c == '*' || c == '?' || c == '[' || c == '\\'

/-- Whether a name needs matching. -/
def hasMeta (text : String) : Bool := text.toList.any isMeta

/-- A bound of a range in a class. A backslash takes the character behind it literally. -/
def bound? : List Char → Option (Char × List Char)
  | [] => none
  | '-' :: _ => none
  | ']' :: _ => none
  | '\\' :: c :: d :: rest => some (c, d :: rest)
  | '\\' :: _ => none
  | c :: d :: rest => some (c, d :: rest)
  | [_] => none

/-- The ranges of a class, up to its end; there is at least one. -/
def ranges? : (fuel : Nat) → (isFirst : Bool) → List Char →
    Option (List (Char × Char) × List Char)
  | 0, _, _ => none
  | fuel + 1, isFirst, cs =>
    match isFirst, cs with
    | false, ']' :: rest => some ([], rest)
    | _, _ => do
      let (low, rest) ← bound? cs
      let (high, rest) ← match rest with
        | '-' :: rest => bound? rest
        | rest => some (low, rest)
      let (ranges, rest) ← ranges? fuel false rest
      return ((low, high) :: ranges, rest)

/-- A part of a pattern: an item, several for a character of several bytes, or a `*`. -/
def parts? : (fuel : Nat) → List Char → Option (List (Option Item))
  | 0, _ => none
  | fuel + 1, cs =>
    let literal (c : Char) : List (Option Item) :=
      (Text.Utf8.encode c.toString).map fun b => some (.byte b)
    match cs with
    | [] => some []
    | '*' :: rest => do return none :: (← parts? fuel rest)
    | '?' :: rest => do return some .any :: (← parts? fuel rest)
    | '\\' :: c :: rest => do return literal c ++ (← parts? fuel rest)
    | '\\' :: [] => none
    | '[' :: '^' :: rest => do
      let (ranges, rest) ← ranges? (rest.length + 1) true rest
      return some (.cls true ranges) :: (← parts? fuel rest)
    | '[' :: rest => do
      let (ranges, rest) ← ranges? (rest.length + 1) true rest
      return some (.cls false ranges) :: (← parts? fuel rest)
    | c :: rest => do return literal c ++ (← parts? fuel rest)

/-- Chunks from parts; several `*` in a row are as good as one. -/
def chunks : List (Option Item) → Chunk × List Chunk
  | [] => ([], [])
  | some item :: rest =>
    let (first, more) := chunks rest
    (item :: first, more)
  | none :: rest =>
    match chunks rest with
    | ([], next :: more) => ([], next :: more)
    | (first, more) => ([], first :: more)

/-- The pattern that a text describes, unless it is malformed. -/
def Pattern.ofText? (text : String) : Option Pattern := do
  let cs := text.toList
  let (first, rest) := chunks (← parts? (cs.length + 1) cs)
  return ⟨first, rest⟩

/-! ## Matching -/

/-- The first character of a name; a byte that begins none counts as one. -/
def character? : Bytes → Option (Char × Bytes)
  | [] => none
  | b :: rest =>
    let (c, more) := Text.Utf8.first b rest
    some (c, rest.drop more)

/-- What is behind an item at the beginning of a name. -/
def Item.after? : Item → Bytes → Option Bytes
  | byte b, name => match name with
    | [] => none
    | c :: rest => if b == c then some rest else none
  | any, name =>
    if name.head? == some slash then none else (character? name).map (·.2)
  | cls isNegated ranges, name => do
    let (c, rest) ← character? name
    let isIn := ranges.any fun (low, high) => low ≤ c && c ≤ high
    if isIn == isNegated then none else return rest

def Chunk.after? (chunk : Chunk) (name : Bytes) : Option Bytes :=
  chunk.foldlM (fun name item => item.after? name) name

/-- The first place in a name where a chunk fits, or the place at which it ends the name; slashes
are not passed over. What remains behind it. -/
def Chunk.find? (chunk : Chunk) (toEnd : Bool) : Bytes → Option Bytes
  | [] => chunk.after? []
  | b :: rest =>
    match chunk.after? (b :: rest) with
    | some remains =>
      if toEnd && !remains.isEmpty then
        if b == slash then none else Chunk.find? chunk toEnd rest
      else some remains
    | none => if b == slash then none else Chunk.find? chunk toEnd rest

/-- Puts each chunk but the last at the first place where it fits, and the last at the end. -/
def matchesStarred : List Chunk → Bytes → Bool
  | [], name => name.isEmpty
  | [[]], name => !name.contains slash
  | [last], name => (last.find? true name).isSome
  | chunk :: rest, name =>
    match chunk.find? false name with
    | some remains => matchesStarred rest remains
    | none => false

def Pattern.matches (p : Pattern) (name : Bytes) : Bool :=
  match p.first.after? name with
  | some remains => matchesStarred p.rest remains
  | none => false

end Oberlet.Glob
