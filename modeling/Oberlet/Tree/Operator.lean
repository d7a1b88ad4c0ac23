/-!
# Operators
-/

namespace Oberlet

/-- Comparisons, which join two simple expressions. -/
inductive RelOp
  | eq | neq | lt | ltEq | gt | gtEq
deriving DecidableEq, Repr

namespace RelOp

def text : RelOp → String
  | eq => "="
  | neq => "#"
  | lt => "<"
  | ltEq => "<="
  | gt => ">"
  | gtEq => ">="

/-- All comparisons but those for equality. -/
def isOrdering : RelOp → Bool
  | eq => false
  | neq => false
  | _ => true

end RelOp

/-- The operators that join the operands of a chain: `+`, `-` and `OR` those of a sum, the others
those of a product. -/
inductive BinOp
  | add | sub | or | mul | div | mod | and
deriving DecidableEq, Repr

namespace BinOp

def text : BinOp → String
  | add => "+"
  | sub => "-"
  | or => "OR"
  | mul => "*"
  | div => "/"
  | mod => "MOD"
  | and => "AND"

def isLogical : BinOp → Bool
  | or => true
  | and => true
  | _ => false

end BinOp

inductive Operator
  | rel (op : RelOp)
  | bin (op : BinOp)
  | not
deriving DecidableEq, Repr

namespace Operator

/-- The operators in the order of their numbers. -/
def all : List Operator :=
  [.rel .eq, .rel .neq, .rel .lt, .rel .ltEq, .rel .gt, .rel .gtEq,
   .bin .add, .bin .sub, .bin .or, .bin .mul, .bin .div, .bin .mod, .bin .and, .not]

def ofNumber? (n : Int) : Option Operator :=
  if n < 0 then none else all[n.toNat]?

def text : Operator → String
  | rel op => op.text
  | bin op => op.text
  | not => "~"

def isLogical : Operator → Bool
  | bin op => op.isLogical
  | _ => false

def isOrdering : Operator → Bool
  | rel op => op.isOrdering
  | _ => false

end Operator

end Oberlet
