/-!
# Data types
-/

namespace Oberlet

/-- A primitive type or an array of a fixed size. `void` is the result of a subprogram that returns
nothing and stands nowhere else; `unknown` is the type of something that has none. -/
inductive DataType
  | integer
  | real
  | string
  | boolean
  | void
  | unknown
  | array (size : Int) (elem : DataType)
deriving DecidableEq, Repr

namespace DataType

/-- A type as it is written. -/
def text : DataType → String
  | integer => "INTEGER"
  | real => "REAL"
  | string => "STRING"
  | boolean => "BOOLEAN"
  | void => "VOID"
  | unknown => "<unknown>"
  | array size elem => "ARRAY " ++ toString size ++ " OF " ++ elem.text

/-- Whether a type can be written: an array whose elements have no type cannot. -/
def hasText : DataType → Bool
  | array _ unknown => false
  | array _ elem => elem.hasText
  | _ => true

/-- The types that arithmetic is for. -/
def isNumeric : DataType → Bool
  | integer => true
  | real => true
  | _ => false

def elem? : DataType → Option DataType
  | array _ elem => some elem
  | _ => none

def isArray (t : DataType) : Bool := t.elem?.isSome

end DataType

end Oberlet
