import Oberlet.Symbol.Basic

/-!
# Built-in subprograms
-/

namespace Oberlet.Subprogram

/-- A built-in with its name and the types of its result and its parameters. -/
def ofBuiltin (name : String) (result : DataType) (params : List DataType) : Subprogram :=
  { name
    span := none
    params := params.map fun type => ⟨"value", none, type⟩
    result
    defined := true
    builtin := true }

/-- The subprograms that every module can call without declaring them. -/
def builtins : List Subprogram :=
  [ofBuiltin "PrintInteger" .void [.integer],
   ofBuiltin "PrintReal" .void [.real],
   ofBuiltin "PrintString" .void [.string],
   ofBuiltin "PrintLine" .void [.string],
   ofBuiltin "ReadInteger" .integer [],
   ofBuiltin "ReadReal" .real [],
   ofBuiltin "IntegerToReal" .real [.integer],
   ofBuiltin "RealToInteger" .integer [.real],
   ofBuiltin "HALT" .void [.integer]]

end Oberlet.Subprogram
