import Oberlet.Lowering.Program
import Oberlet.Proofs.Lowering.Emit
import Oberlet.Proofs.Typing.Rules

/-!
# The code of expressions, as a relation

The relations of this module say which instructions make up the code of an expression, given the
register of the first of them.
-/

namespace Oberlet

open Llvm Lowering

/-- The operand is a string constant with a given text. -/
def IsText (strings : List String) (text : String) (v : Operand) : Prop :=
  ∃ index, strings[index]? = some text ∧ v = .text index (text.utf8ByteSize + 1)

/-! ## Functions of the host -/

theorem Runtime.name_mem (r : Runtime) : r.function.name ∈ reservedNames := by
  cases r <;> decide

/-- No subprogram has the name of a function of the host. -/
theorem functionName_ne_reserved {moduleName name host : String} (hhost : host ∈ reservedNames) :
    functionName moduleName name ≠ host := by
  rw [functionName]
  split
  · rintro rfl
    have hdot : ∀ host ∈ reservedNames, '.' ∉ host.toList := by decide
    exact hdot _ hhost (by simp)
  · rintro rfl
    contradiction

/-! ## Comparisons -/

/-- Code that puts the empty string in place of a null string. -/
inductive NonNullCode (strings : List String) (n : Nat) : Operand → List Instr → Operand → Prop
  | text {index size : Nat} : NonNullCode strings n (.text index size) [] (.text index size)
  | select {v empty : Operand} : (∀ index size, v ≠ .text index size) → IsText strings "" empty →
      NonNullCode strings n v ([.icmp .eq v .null] ++ [.select (.reg n .i1) empty v])
        (.reg (n + 1) .charPtr)

mutual

/-- Code that tells whether two values of a type are equal. -/
inductive EqualsCode (strings : List String) :
    DataType → Nat → Operand → Operand → List Instr → Operand → Prop
  | integer {n : Nat} {l r : Operand} :
      EqualsCode strings .integer n l r [.icmp .eq l r] (.reg n .i1)
  | boolean {n : Nat} {l r : Operand} :
      EqualsCode strings .boolean n l r [.icmp .eq l r] (.reg n .i1)
  | real {n : Nat} {l r : Operand} :
      EqualsCode strings .real n l r [.fcmp .oeq l r] (.reg n .i1)
  | string {n k : Nat} {l r l' r' : Operand} {front back : List Instr} :
      NonNullCode strings n l front l' →
      NonNullCode strings (n + front.length) r back r' →
      k = n + front.length + back.length →
      EqualsCode strings .string n l r
        (front ++ (back ++ ([.call Runtime.strcmp.function.signature [l', r']] ++
          [.icmp .eq (.reg k .i32) (.int 0)]))) (.reg (k + 1) .i1)
  | array {n : Nat} {size : Int} {elem : DataType} {l r v : Operand} {code : List Instr} :
      ElemsCode strings elem size.toNat n l r code v →
      EqualsCode strings (.array size elem) n l r code v

inductive ElemsCode (strings : List String) :
    DataType → Nat → Nat → Operand → Operand → List Instr → Operand → Prop
  | one {n : Nat} {elem : DataType} {ty : Ty} {l r v : Operand} {code : List Instr} :
      elem.target = .ok ty →
      EqualsCode strings elem (n + 2) (.reg n ty) (.reg (n + 1) ty) code v →
      ElemsCode strings elem 1 n l r
        ([.extractValue l ty 0] ++ ([.extractValue r ty 0] ++ code)) v
  | more {n k count : Nat} {elem : DataType} {ty : Ty} {l r v w : Operand}
      {before code : List Instr} :
      ElemsCode strings elem (count + 1) n l r before v →
      k = n + before.length →
      elem.target = .ok ty →
      EqualsCode strings elem (k + 2) (.reg k ty) (.reg (k + 1) ty) code w →
      ElemsCode strings elem (count + 2) n l r
        (before ++ ([.extractValue l ty (count + 1)] ++ ([.extractValue r ty (count + 1)] ++
          (code ++ [.binary .and v w])))) (.reg (k + 2 + code.length) .i1)

end

inductive CompareCode (strings : List String) (n : Nat) (l r : Operand) :
    RelOp → DataType → List Instr → Operand → Prop
  | integer {op : RelOp} :
      CompareCode strings n l r op .integer [.icmp op.intPred l r] (.reg n .i1)
  | real {op : RelOp} :
      CompareCode strings n l r op .real [.fcmp op.realPred l r] (.reg n .i1)
  | eq {t : DataType} {code : List Instr} {v : Operand} : ¬ t.Numeric →
      EqualsCode strings t n l r code v → CompareCode strings n l r .eq t code v
  | neq {t : DataType} {code : List Instr} {v : Operand} : ¬ t.Numeric →
      EqualsCode strings t n l r code v →
      CompareCode strings n l r .neq t (code ++ [.binary .xor v (.bool true)])
        (.reg (n + code.length) v.ty)

/-! ## Calls -/

/-- The built-ins that print their argument, with the formats. -/
def printFormats : List (String × String) :=
  [("PrintInteger", "%d"), ("PrintReal", "%f"), ("PrintString", "%s"), ("PrintLine", "%s\n")]

/-- The built-ins that read a value, with the formats and the types. -/
def readFormats : List (String × String × Ty) :=
  [("ReadInteger", "%d", .i32), ("ReadReal", "%lf", .double)]

inductive BuiltinCode (strings : List String) (n : Nat) :
    String → List Operand → List Instr → Option Operand → Prop
  | print {name format : String} {text v : Operand} :
      (name, format) ∈ printFormats → IsText strings format text →
      BuiltinCode strings n name [v] [.call Runtime.printf.function.signature [text, v]] none
  | read {name format : String} {ty : Ty} {text : Operand} :
      (name, format, ty) ∈ readFormats → IsText strings format text →
      BuiltinCode strings n name [] ([.alloca ty] ++
        ([.call Runtime.scanf.function.signature [text, .reg n (.ptr ty)]] ++
          [.load ty (.reg n (.ptr ty))])) (some (.reg (n + 2) ty))
  | toReal {v : Operand} :
      BuiltinCode strings n "IntegerToReal" [v] [.sitofp v] (some (.reg n .double))
  | toInteger {v : Operand} :
      BuiltinCode strings n "RealToInteger" [v] [.fptosi v] (some (.reg n .i32))
  | halt {v : Operand} :
      BuiltinCode strings n "HALT" [v] [.call Runtime.exit.function.signature [v]] none

/-- What the code of a body depends on: what its names stand for, how they are bound, and the tables
that code refers to. -/
structure CodeSetting where
  names : Names
  binding : String → Except Fault Binding
  tables : Tables

inductive InvokeCode (k : CodeSetting) (n : Nat) (s : Subprogram) (args : List Operand) :
    List Instr → Option Operand → Prop
  | builtin {code : List Instr} {v : Option Operand} : s.builtin = true →
      BuiltinCode k.tables.strings n s.name args code v → InvokeCode k n s args code v
  | function {index : Nat} {callee : Signature} : s.builtin = false →
      k.binding s.name = .ok (.function index) → k.tables.signatures[index]? = some callee →
      InvokeCode k n s args [.call callee args]
        (if s.result = .void then none else some (.reg n callee.result))

/-! ## Expressions -/

inductive NegateCode (n : Nat) (v : Operand) : DataType → List Instr → Operand → Prop
  | integer : NegateCode n v .integer [.binary .sub (.int 0) v] (.reg n .i32)
  | real : NegateCode n v .real [.fneg v] (.reg n v.ty)

mutual

inductive ExprCode (k : CodeSetting) : Expr → Nat → List Instr → Operand → Prop
  | integer {node : Node} {n value : Nat} :
      ExprCode k (.literal node (.integer value)) n [] (.int value)
  | real {node : Node} {n : Nat} {value : Binary64} :
      ExprCode k (.literal node (.real value)) n [] (.real value)
  | boolean {node : Node} {n : Nat} {value : Bool} :
      ExprCode k (.literal node (.boolean value)) n [] (.bool value)
  | string {node : Node} {n : Nat} {value : String} {v : Operand} :
      IsText k.tables.strings value v → ExprCode k (.literal node (.string value)) n [] v
  | paren {node : Node} {inner : Expr} {n : Nat} {code : List Instr} {v : Operand} :
      ExprCode k inner n code v → ExprCode k (.paren node inner) n code v
  | not {node : Node} {operand : Expr} {n : Nat} {code : List Instr} {v : Operand} :
      ExprCode k operand n code v →
      ExprCode k (.not node operand) n (code ++ [.binary .xor v (.bool true)])
        (.reg (n + code.length) v.ty)
  | designator {d : Designator Expr} {n : Nat} {t : DataType} {ty : Ty} {code : List Instr}
      {address : Operand} :
      HasType k.names (.designator d) t → t.target = .ok ty → AddressCode k d n code address →
      ExprCode k (.designator d) n (code ++ [.load ty address]) (.reg (n + code.length) ty)
  | call {c : Call Expr} {n : Nat} {code : List Instr} {v : Operand} :
      CallCode k c n code (some v) → ExprCode k (.call c) n code v
  | comparison {node : Node} {left right : Expr} {op : RelOp} {n : Nat} {t : DataType}
      {front mid back : List Instr} {l r v : Operand} :
      HasType k.names left t → ExprCode k left n front l →
      ExprCode k right (n + front.length) mid r →
      CompareCode k.tables.strings (n + front.length + mid.length) l r op t back v →
      ExprCode k (.comparison node left op right) n (front ++ (mid ++ back)) v
  | sum {node : Node} {first : Expr} {rest : List (BinOp × Expr)} {n : Nat} {t : DataType}
      {front back : List Instr} {v w : Operand} :
      HasType k.names first t → ExprCode k first n front v →
      ChainCode k t v rest (n + front.length) back w →
      ExprCode k (.sum node false first rest) n (front ++ back) w
  | negated {node : Node} {first : Expr} {rest : List (BinOp × Expr)} {n : Nat} {t : DataType}
      {front sign back : List Instr} {v v' w : Operand} :
      HasType k.names first t → ExprCode k first n front v →
      NegateCode (n + front.length) v t sign v' →
      ChainCode k t v' rest (n + front.length + sign.length) back w →
      ExprCode k (.sum node true first rest) n (front ++ (sign ++ back)) w
  | product {node : Node} {first : Expr} {rest : List (BinOp × Expr)} {n : Nat} {t : DataType}
      {front back : List Instr} {v w : Operand} :
      HasType k.names first t → ExprCode k first n front v →
      ChainCode k t v rest (n + front.length) back w →
      ExprCode k (.product node first rest) n (front ++ back) w

/-- Code for the operands of a chain behind a value, joined from left to right. -/
inductive ChainCode (k : CodeSetting) :
    DataType → Operand → List (BinOp × Expr) → Nat → List Instr → Operand → Prop
  | nil {t : DataType} {v : Operand} {n : Nat} : ChainCode k t v [] n [] v
  | cons {t : DataType} {v r w : Operand} {op : BinOp} {instr : BinaryOp} {operand : Expr}
      {rest : List (BinOp × Expr)} {n : Nat} {front back : List Instr} :
      ExprCode k operand n front r → op.instr? t = some instr →
      ChainCode k t (.reg (n + front.length) v.ty) rest (n + front.length + 1) back w →
      ChainCode k t v ((op, operand) :: rest) n (front ++ ([.binary instr v r] ++ back)) w

inductive AddressCode (k : CodeSetting) : Designator Expr → Nat → List Instr → Operand → Prop
  | intro {node : Node} {name : Ident} {selectors : List Expr} {n : Nat} {v : Variable}
      {base address : Operand} {content : Ty} {code : List Instr} :
      k.names name.name = some (.var v) → k.binding v.name = .ok (.storage base content) →
      SelectorsCode k base content selectors n code address →
      AddressCode k ⟨node, name, selectors⟩ n code address

/-- Code for the address that selectors lead to, each one level into an array. -/
inductive SelectorsCode (k : CodeSetting) :
    Operand → Ty → List Expr → Nat → List Instr → Operand → Prop
  | nil {base : Operand} {content : Ty} {n : Nat} : SelectorsCode k base content [] n [] base
  | cons {base index address : Operand} {size : Nat} {elem : Ty} {selector : Expr}
      {rest : List Expr} {n : Nat} {front back : List Instr} :
      ExprCode k selector n front index →
      SelectorsCode k (.reg (n + front.length) (.ptr elem)) elem rest (n + front.length + 1) back
        address →
      SelectorsCode k base (.array size elem) (selector :: rest) n
        (front ++ ([.elementPtr size elem base index] ++ back)) address

inductive CallCode (k : CodeSetting) : Call Expr → Nat → List Instr → Option Operand → Prop
  | intro {node : Node} {callee : Ident} {args : List Expr} {n : Nat} {s : Subprogram}
      {front back : List Instr} {values : List Operand} {v : Option Operand} :
      k.names callee.name = some (.proc s) → ArgsCode k args n front values →
      InvokeCode k (n + front.length) s values back v →
      CallCode k ⟨node, callee, args⟩ n (front ++ back) v

inductive ArgsCode (k : CodeSetting) : List Expr → Nat → List Instr → List Operand → Prop
  | nil {n : Nat} : ArgsCode k [] n [] []
  | cons {arg : Expr} {rest : List Expr} {n : Nat} {front back : List Instr} {v : Operand}
      {values : List Operand} :
      ExprCode k arg n front v → ArgsCode k rest (n + front.length) back values →
      ArgsCode k (arg :: rest) n (front ++ back) (v :: values)

end

end Oberlet
