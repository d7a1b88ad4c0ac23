import Oberlet.DataType
import Oberlet.Source.Span

/-!
# Symbols
-/

namespace Oberlet

/-- A variable or a parameter. -/
structure Variable where
  name : String
  span : Option Span
  type : DataType
deriving DecidableEq, Repr

/-- A subprogram. It is `defined` once a body is attached to it. -/
structure Subprogram where
  name : String
  span : Option Span
  params : List Variable
  result : DataType
  defined : Bool
  builtin : Bool
deriving DecidableEq, Repr

namespace Subprogram

/-- The names of parameters do not matter to a signature. -/
def sameSignature (a b : Subprogram) : Bool :=
  a.params.map (·.type) == b.params.map (·.type) && a.result == b.result

theorem sameSignature_iff (a b : Subprogram) :
    a.sameSignature b = true ↔
      a.params.map (·.type) = b.params.map (·.type) ∧ a.result = b.result := by
  simp [sameSignature]

end Subprogram

/-- What a name stands for: the module itself, a variable or parameter, or a subprogram. -/
inductive Symbol
  | mod (name : String) (span : Option Span)
  | var (v : Variable)
  | proc (s : Subprogram)
deriving DecidableEq, Repr

namespace Symbol

inductive Kind
  | mod | var | proc
deriving DecidableEq, Repr

def Kind.text : Kind → String
  | mod => "module"
  | var => "variable"
  | proc => "subprogram"

def kind : Symbol → Kind
  | mod _ _ => .mod
  | var _ => .var
  | proc _ => .proc

def name : Symbol → String
  | mod name _ => name
  | var v => v.name
  | proc s => s.name

/-- Where the name was written; a built-in has no such place. -/
def span : Symbol → Option Span
  | mod _ span => span
  | var v => v.span
  | proc s => s.span

/-- The symbol itself, if it is of the kind that is asked for. Without a kind, any symbol will do.
-/
def ofKind? (kind : Option Kind) (s : Symbol) : Option Symbol :=
  if kind.all (· == s.kind) then some s else none

def var? : Symbol → Option Variable
  | var v => some v
  | _ => none

def proc? : Symbol → Option Subprogram
  | proc s => some s
  | _ => none

end Symbol

end Oberlet
