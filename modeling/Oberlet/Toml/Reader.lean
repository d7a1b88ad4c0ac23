import Oberlet.Toml.Literal
import Oberlet.Toml.Value

/-!
# Reading a configuration file

A file is a sequence of headers and assignments. Where and why it is malformed is not told.
-/

namespace Oberlet.Toml

/-- How reading fails: the file is malformed, or a name, a header or a mark other than an equals
sign stands where a value is expected. -/
inductive ReadError
  | malformed
  | misplaced
deriving DecidableEq, Repr

/-- What is missing makes a file malformed. -/
def needed {α : Type} : Option α → Except ReadError α
  | some a => .ok a
  | none => .error .malformed

def require (holds : Bool) : Except ReadError Unit :=
  if holds then .ok () else .error .malformed

/-! ## Names -/

/-- Splits a path into the names between its dots. A name may stand in quotes, within which
nothing is special. -/
def names? : (fuel : Nat) → List Char → Option (List String)
  | 0, _ => none
  | fuel + 1, cs =>
    match cs.dropWhile isBlank with
    | [] => some []
    | '.' :: rest =>
      match rest with
      | c :: _ => if isBare c || c == '\'' || c == '"' || c == ' ' then names? fuel rest else none
      | [] => none
    | '\'' :: rest => quoted fuel '\'' rest
    | '"' :: rest => quoted fuel '"' rest
    | c :: rest =>
      if !isBare c then none
      else
        let name := c :: rest.takeWhile isBare
        let behind := rest.dropWhile isBare
        match behind, behind.dropWhile isBlank with
        | [], _ => some [String.ofList name]
        | _, [] => some [String.ofList name]
        | _, '.' :: more => do return String.ofList name :: (← names? fuel ('.' :: more))
        | _, _ => none
where
  quoted (fuel : Nat) (mark : Char) (cs : List Char) : Option (List String) :=
    match cs.dropWhile (· != mark) with
    | [] => none
    | _ :: rest => do
      return String.ofList (cs.takeWhile (· != mark)) :: (← names? fuel rest)

/-- The names of a path, of which there is at least one. -/
def path? (cs : List Char) : Option (List String) := do
  let names ← names? (cs.length + 1) cs
  if names.isEmpty then none else return names

/-! ## Values -/

def dateTime (literal : List Char) (holds : Bool) : Except ReadError Value := do
  require holds
  return .dateTime (String.ofList literal)

/-- An array; one of tables alone is a list of tables. -/
def ofItems (items : List Value) : Value :=
  let inner := items.filterMap fun
    | .table t => some t
    | _ => none
  if !items.isEmpty && inner.length == items.length then .tables inner else .array items

/-- What stands before a field. -/
inductive Before
  | start
  | field
  | comma
deriving DecidableEq, Repr

mutual

def value : (fuel : Nat) → List Token → Except ReadError (Value × List Token)
  | 0, _ => .error .malformed
  | fuel + 1, tokens =>
    match tokens with
    | .string text :: rest => return (.string text, rest)
    | .boolean b :: rest => return (.boolean b, rest)
    | .special literal :: rest => return (.float literal, rest)
    | .integer literal :: rest => return (.integer (← needed (integer? literal)), rest)
    | .float literal :: rest => do
      require (isFloat literal)
      return (.float (String.ofList literal), rest)
    | .date day :: .time clock :: .offset zone :: rest => do
      let holds := isDateValue day && isTimeValue clock && isOffsetValue zone
      return (← dateTime (day ++ 'T' :: clock ++ zone) holds, rest)
    | .date day :: .time clock :: rest => do
      let holds := isDateValue day && isTimeValue clock
      return (← dateTime (day ++ 'T' :: clock) holds, rest)
    | .date day :: rest => return (← dateTime day (isDateValue day), rest)
    | .time clock :: rest => return (← dateTime clock (isTimeValue clock), rest)
    | .openArray :: rest => do
      let (items, rest) ← items fuel rest
      return (ofItems items, rest)
    | .openFields :: rest => do
      let (t, rest) ← fields fuel (.empty false) .start rest
      return (.table t.close, rest)
    | [] => .error .malformed
    | .equals :: _ => .error .malformed
    | .bad :: _ => .error .malformed
    | .finish :: _ => .error .malformed
    | _ => .error .misplaced

/-- Reads the values of an array, up to its end. -/
def items : (fuel : Nat) → List Token → Except ReadError (List Value × List Token)
  | 0, _ => .error .malformed
  | _ + 1, .closeArray :: rest => return ([], rest)
  | fuel + 1, tokens => do
    let (item, rest) ← value fuel tokens
    match rest with
    | .comma :: rest => do
      let (items, rest) ← items fuel rest
      return (item :: items, rest)
    | .closeArray :: rest => return ([item], rest)
    | _ => .error .malformed

/-- Reads the fields of a table that is written as a value, up to its end. There is a comma
between two fields, and none behind the last. -/
def fields : (fuel : Nat) → Table → Before → List Token → Except ReadError (Table × List Token)
  | 0, _, _, _ => .error .malformed
  | fuel + 1, t, before, tokens =>
    match tokens with
    | .closeFields :: rest => do
      require (before != .comma)
      return (t, rest)
    | .comma :: rest => do
      require (before != .comma)
      fields fuel t .comma rest
    | .key text :: .equals :: rest => do
      require (before != .field)
      let path ← needed (path? text)
      let (v, rest) ← value fuel rest
      fields fuel (t.set v path) .field rest
    | _ => .error .malformed

end

/-! ## Files -/

/-- What is known while a file is read: the table so far, the path to the table that assignments
go to, and the headers so far. -/
structure Reading where
  root : Table
  current : List String
  headers : List String
deriving Repr

namespace Reading

/-- A header opens a table, each at most once. A closed table cannot be opened. -/
def openTable? (r : Reading) (header : String) : Option Reading := do
  let path ← path? header.toList
  let root ← r.root.create? path
  let isClosed := match root.get? path with
    | some (.table t) => t.isClosed
    | _ => false
  if isClosed || header ∈ r.headers then none else return ⟨root, path, header :: r.headers⟩

/-- A header of a list adds a table to it, even in a closed table. Tables below the list may be
opened again. -/
def addTable? (r : Reading) (header : String) : Option Reading := do
  let path ← path? header.toList
  let root := (r.root.create? path.dropLast).getD r.root
  let list ← match root.get? path with
    | none => some []
    | some (.tables list) => some list
    | some _ => none
  let below := (header ++ ".").toList
  let headers := r.headers.filter fun h => !below.isPrefixOf h.toList
  return ⟨root.set (.tables (list ++ [.empty false])) path, path, header :: headers⟩

/-- Gives a name its value in the table that the last header opened. -/
def assign? (r : Reading) (path : List String) (v : Value) : Option Reading := do
  let key ← path.getLast?
  let root ← r.root.assign? key v (r.current ++ path.dropLast)
  return { r with root }

end Reading

/-- Reads headers, each with the assignments behind it. -/
def entries : (fuel : Nat) → Reading → List Token → Except ReadError Reading
  | 0, _, _ => .error .malformed
  | fuel + 1, r, tokens =>
    match tokens with
    | [.finish] => return r
    | .openList :: .header text :: .closeList :: rest => do
      entries fuel (← needed (r.addTable? (String.ofList text))) rest
    | .openArray :: .header text :: .closeArray :: rest => do
      entries fuel (← needed (r.openTable? (String.ofList text))) rest
    | .key text :: .equals :: rest => do
      let path ← needed (path? text)
      let (v, rest) ← value (2 * rest.length + 2) rest
      entries fuel (← needed (r.assign? path v)) rest
    | _ => .error .malformed

/-- The table that a file stands for. -/
def read (cs : List Char) : Except ReadError Table := do
  let tokens := Token.ofText cs
  let r ← entries (tokens.length + 1) ⟨.empty false, [], []⟩ tokens
  return r.root

end Oberlet.Toml
