import Oberlet.Fault

/-!
# Annotations

Analysis attaches facts to the nodes of a tree. Room is made before anything else is checked: a
write that fails may leave a larger store behind, in which no more is known.
-/

namespace Oberlet

/-- What is known of a node: the symbols that it introduces or refers to, and its type. -/
structure Slot where
  symbols : Option (List Symbol)
  type : Option DataType
deriving DecidableEq, Repr

def Slot.empty : Slot := ⟨none, none⟩

/-- Two tables of the same size, indexed by node id. They grow when an id lies beyond them, so their
initial size cannot be observed. -/
structure Annotations where
  symbols : Array (Option (List Symbol))
  types : Array (Option DataType)
  size_eq : symbols.size = types.size
deriving DecidableEq, Repr

namespace Annotations

def ofSize (size : Nat) : Annotations :=
  ⟨Array.replicate size none, Array.replicate size none, by simp⟩

def slot (a : Annotations) (id : Int) : Slot :=
  if id < 0 then .empty else ⟨a.symbols[id.toNat]?.join, a.types[id.toNat]?.join⟩

def hasType (a : Annotations) (id : Int) : Bool := (a.slot id).type.isSome

def hasSymbols (a : Annotations) (id : Int) : Bool := (a.slot id).symbols.isSome

/-! ## Writing -/

/-- Makes room for an index. -/
def grow (a : Annotations) (index : Nat) : Annotations :=
  let missing := index + 1 - a.types.size
  { symbols := a.symbols ++ Array.replicate missing none
    types := a.types ++ Array.replicate missing none
    size_eq := by simp [a.size_eq] }

def setSymbols (a : Annotations) (index : Nat) (symbols : List Symbol) : Annotations :=
  { a with
    symbols := a.symbols.setIfInBounds index (some symbols)
    size_eq := by simp [a.size_eq] }

def setType (a : Annotations) (index : Nat) (type : DataType) : Annotations :=
  { a with
    types := a.types.setIfInBounds index (some type)
    size_eq := by simp [a.size_eq] }

/-- Attaches symbols to a node that has none yet. There may be none of them. -/
def writeSymbols (a : Annotations) (id : Int) (symbols : List Symbol) :
    Except Fault Unit × Annotations :=
  if id < 0 then (throw (.invalidNode id), a)
  else
    let grown := a.grow id.toNat
    if grown.hasSymbols id then (throw (.symbolsTwice id), grown)
    else (return (), grown.setSymbols id.toNat symbols)

/-- Attaches a type to a node that has none yet. -/
def writeType (a : Annotations) (id : Int) (type : DataType) : Except Fault Unit × Annotations :=
  if id < 0 then (throw (.invalidNode id), a)
  else
    let grown := a.grow id.toNat
    if type == .unknown then (throw (.unknownType id), grown)
    else if grown.hasType id then (throw (.typeTwice id), grown)
    else (return (), grown.setType id.toNat type)

/-- The store after symbols are attached, if that succeeds. -/
def annotateSymbols (a : Annotations) (id : Int) (symbols : List Symbol) :
    Except Fault Annotations :=
  let written := a.writeSymbols id symbols
  written.1.map fun _ => written.2

def annotateType (a : Annotations) (id : Int) (type : DataType) : Except Fault Annotations :=
  let written := a.writeType id type
  written.1.map fun _ => written.2

/-! ## Reading -/

/-- The type that a node must have. -/
def typeOf (a : Annotations) (id : Int) : Except Fault DataType :=
  match (a.slot id).type with
  | some type => return type
  | none => throw (.noType id)

/-- The symbols of a node, each seen through `view`. A symbol that has no such view is of the
wrong kind. -/
def symbolsOf {α : Type} (a : Annotations) (view : Symbol → Option α) (id : Int) :
    Except Fault (List α) :=
  match (a.slot id).symbols with
  | none => throw (.noSymbols id)
  | some symbols => symbols.mapM fun symbol =>
    match view symbol with
    | some value => return value
    | none => throw (.wrongSymbolKind symbol.name id symbol.kind)

/-- The only symbol of a node. -/
def symbolOf {α : Type} (a : Annotations) (view : Symbol → Option α) (id : Int) :
    Except Fault α := do
  match ← a.symbolsOf view id with
  | [value] => return value
  | values => throw (.notOneSymbol id values.length)

/-- The store with every symbol replaced. -/
def mapSymbols (a : Annotations) (f : Symbol → Symbol) : Annotations :=
  { a with
    symbols := a.symbols.map fun entry => entry.map (·.map f)
    size_eq := by simp [a.size_eq] }

/-! ## One operation after the other -/

/-- The operations on a store. Symbols are asked for by their kind, or without regard to it. -/
inductive Op
  | annotateSymbols (id : Int) (symbols : List Symbol)
  | annotateType (id : Int) (type : DataType)
  | hasSymbols (id : Int)
  | hasType (id : Int)
  | symbolsOf (kind : Option Symbol.Kind) (id : Int)
  | symbolOf (kind : Option Symbol.Kind) (id : Int)
  | typeOf (id : Int)
deriving DecidableEq, Repr

inductive Reply
  | done
  | flag (value : Bool)
  | symbols (symbols : List Symbol)
  | symbol (symbol : Symbol)
  | type (type : DataType)
  | broken (fault : Fault)
deriving DecidableEq, Repr

def Reply.of {α : Type} (answer : α → Reply) : Except Fault α → Reply
  | .ok value => answer value
  | .error fault => .broken fault

def step (a : Annotations) : Op → Reply × Annotations
  | .annotateSymbols id symbols =>
    let written := a.writeSymbols id symbols
    (.of (fun _ => .done) written.1, written.2)
  | .annotateType id type =>
    let written := a.writeType id type
    (.of (fun _ => .done) written.1, written.2)
  | .hasSymbols id => (.flag (a.hasSymbols id), a)
  | .hasType id => (.flag (a.hasType id), a)
  | .symbolsOf kind id => (.of .symbols (a.symbolsOf (Symbol.ofKind? kind) id), a)
  | .symbolOf kind id => (.of .symbol (a.symbolOf (Symbol.ofKind? kind) id), a)
  | .typeOf id => (.of .type (a.typeOf id), a)

end Annotations

end Oberlet
