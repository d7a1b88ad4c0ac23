import Oberlet.Diagnostic
import Oberlet.Fault
import Oberlet.Symbol.Builtin

/-!
# Symbol tables

The bottom frame of a symbol table is the universe, which is never left. Within a frame names are
unique, and an inner frame may hide the names of an outer one.
-/

namespace Oberlet

/-- A finite map from names to symbols. -/
abbrev Frame := List (String × Symbol)

/-- A stack of frames: the innermost, and those around it from the inside out. -/
structure SymbolTable where
  current : Frame
  outer : List Frame
deriving DecidableEq, Repr

namespace SymbolTable

/-- The universe alone, with the built-in subprograms. -/
def initial : SymbolTable :=
  ⟨Subprogram.builtins.map fun s => (s.name, .proc s), []⟩

def enter (table : SymbolTable) : SymbolTable := ⟨[], table.current :: table.outer⟩

/-- Pops the innermost frame, unless it is the universe. -/
def exit (table : SymbolTable) : Except Fault SymbolTable :=
  match table.outer with
  | frame :: outer => return ⟨frame, outer⟩
  | [] => throw .universeExited

def depth (table : SymbolTable) : Nat := table.outer.length + 1

def lookupLocal (table : SymbolTable) (name : String) : Option Symbol :=
  table.current.lookup name

/-- Finds the symbol of a name from the innermost frame outwards. -/
def lookup (table : SymbolTable) (name : String) : Option Symbol :=
  (table.current :: table.outer).findSome? fun frame => List.lookup name frame

/-- The diagnostic about binding a name a second time in one frame. It points at the symbol that
was there before, if that was written anywhere. -/
def duplicate (existing new : Symbol) : Diagnostic :=
  { cause := match existing.span with
      | none => .duplicateBuiltin existing.name existing.kind
      | some _ => .duplicateName existing.name
    span := existing.span <|> new.span
    related := new.span }

/-- Binds a symbol in the innermost frame. -/
def define (table : SymbolTable) (symbol : Symbol) : Except Diagnostic SymbolTable :=
  match table.lookupLocal symbol.name with
  | some existing => throw (duplicate existing symbol)
  | none => return { table with current := (symbol.name, symbol) :: table.current }

/-- A frame with the binding of a name replaced. -/
def rebindIn (name : String) (symbol : Symbol) : Frame → Frame
  | [] => []
  | (key, value) :: rest =>
    if key == name then (key, symbol) :: rest else (key, value) :: rebindIn name symbol rest

/-- Replaces the symbol that a name has in the innermost frame that binds it. -/
def rebind (table : SymbolTable) (name : String) (symbol : Symbol) : SymbolTable :=
  match inFrames (table.current :: table.outer) with
  | current :: outer => ⟨current, outer⟩
  | [] => table
where
  /-- The frames with the first binding of the name replaced. -/
  inFrames : List Frame → List Frame
    | [] => []
    | frame :: outer =>
      if (List.lookup name frame).isSome then rebindIn name symbol frame :: outer
      else frame :: inFrames outer

/-! ## One operation after the other -/

inductive Op
  | enter
  | exit
  | define (symbol : Symbol)
  | lookup (name : String)
  | lookupLocal (name : String)
deriving DecidableEq, Repr

inductive Reply
  | done
  | found (symbol : Option Symbol)
  | refused (d : Diagnostic)
  | broken (fault : Fault)
deriving DecidableEq, Repr

/-- Carries out an operation. One that fails leaves the table as it was. -/
def step (table : SymbolTable) : Op → Reply × SymbolTable
  | .enter => (.done, table.enter)
  | .exit =>
    match table.exit with
    | .ok left => (.done, left)
    | .error fault => (.broken fault, table)
  | .define symbol =>
    match table.define symbol with
    | .ok extended => (.done, extended)
    | .error d => (.refused d, table)
  | .lookup name => (.found (table.lookup name), table)
  | .lookupLocal name => (.found (table.lookupLocal name), table)

end SymbolTable

end Oberlet
