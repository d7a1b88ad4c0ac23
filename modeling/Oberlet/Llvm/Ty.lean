/-!
# Types of the target language
-/

namespace Oberlet.Llvm

/-- The types of LLVM IR that generated code uses. -/
inductive Ty
  | i1
  | i8
  | i32
  | double
  | void
  | ptr (elem : Ty)
  | array (size : Nat) (elem : Ty)
deriving DecidableEq, Repr

namespace Ty

def text : Ty → String
  | i1 => "i1"
  | i8 => "i8"
  | i32 => "i32"
  | double => "double"
  | void => "void"
  | ptr elem => elem.text ++ "*"
  | array size elem => s!"[{size} x {elem.text}]"

abbrev charPtr : Ty := ptr i8

end Ty

end Oberlet.Llvm
