import Oberlet.Lowering.Basic
import Oberlet.Tree.Basic

/-!
# Code for expressions

The code of an expression stays in the block in which it begins.
-/

namespace Oberlet

open Llvm Lowering

/-! ## Operators -/

/-- The instruction for an operator, by the type of its operands. -/
def BinOp.instr? : DataType → BinOp → Option BinaryOp
  | .integer, .add => some .add
  | .integer, .sub => some .sub
  | .integer, .mul => some .mul
  | .integer, .div => some .sdiv
  | .integer, .mod => some .srem
  | .real, .add => some .fadd
  | .real, .sub => some .fsub
  | .real, .mul => some .fmul
  | .real, .div => some .fdiv
  | .real, .mod => some .frem
  | .boolean, .or => some .or
  | .boolean, .and => some .and
  | _, _ => none

def BinOp.lower (op : BinOp) (type : DataType) (left right : Operand) : Lower Operand :=
  match op.instr? type with
  | some instr => Lower.emit (.binary instr left right)
  | none => throw (.undefinedOperator (.bin op) type)

def RelOp.intPred : RelOp → IntPred
  | eq => .eq
  | neq => .ne
  | lt => .slt
  | ltEq => .sle
  | gt => .sgt
  | gtEq => .sge

/-- A comparison of reals, which a value that is no number always fails. -/
def RelOp.realPred : RelOp → RealPred
  | eq => .oeq
  | neq => .one
  | lt => .olt
  | ltEq => .ole
  | gt => .ogt
  | gtEq => .oge

/-- Code that negates a truth value. -/
def Lower.invert (operand : Operand) : Lower Operand :=
  Lower.emit (.binary .xor operand (.bool true))

/-- Code that puts the empty string in place of a null string. A constant is never null. -/
def Lower.nonNull (operand : Operand) : Lower Operand :=
  match operand with
  | .text _ _ => return operand
  | _ => do
    let isNull ← Lower.icmp .eq operand .null
    let empty ← Lower.string ""
    Lower.emit (.select isNull empty operand)

/-- Code that tells whether the first `count` elements of two arrays are equal, if there are any. -/
def Lower.elementsEqual (equals : Operand → Operand → Lower Operand) (left right : Operand) :
    (count : Nat) → Lower (Option Operand)
  | 0 => return none
  | count + 1 => do
    let before ← elementsEqual equals left right count
    let leftElem ← Lower.extractValue left count
    let rightElem ← Lower.extractValue right count
    let same ← equals leftElem rightElem
    match before with
    | none => return some same
    | some before => return some (← Lower.emit (.binary .and before same))

/-- Code that tells whether two values are equal. Strings are compared by content and arrays
element by element. -/
def DataType.lowerEquals : DataType → Operand → Operand → Lower Operand
  | .integer, left, right => Lower.icmp .eq left right
  | .boolean, left, right => Lower.icmp .eq left right
  | .real, left, right => Lower.fcmp .oeq left right
  | .string, left, right => do
    let strcmp ← Lower.runtime .strcmp
    let left ← Lower.nonNull left
    let right ← Lower.nonNull right
    let order ← Lower.emit (.call strcmp [left, right])
    Lower.icmp .eq order (.int 0)
  | .array size elem, left, right => do
    match ← Lower.elementsEqual elem.lowerEquals left right size.toNat with
    | some result => return result
    | none => throw .illTyped
  | .void, _, _ => throw (.noEquality .void)
  | .unknown, _, _ => throw (.noEquality .unknown)

/-- Code for a comparison. Only numbers are ordered. -/
def RelOp.lower (op : RelOp) (type : DataType) (left right : Operand) : Lower Operand :=
  match type, op with
  | .integer, _ => Lower.icmp op.intPred left right
  | .real, _ => Lower.fcmp op.realPred left right
  | _, .eq => type.lowerEquals left right
  | _, .neq => do Lower.invert (← type.lowerEquals left right)
  | _, _ => throw (.undefinedOperator (.rel op) type)

/-! ## Calls -/

/-- Code that prints the first argument. -/
def Lower.print (format : String) (args : List Operand) : Lower Unit := do
  let some value := args[0]? | throw .missingArgument
  let printf ← Lower.runtime .printf
  let format ← Lower.string format
  let _ ← Lower.emit (.call printf [format, value])

/-- Code that reads a value into a slot of its own. -/
def Lower.read (format : String) (ty : Ty) : Lower Operand := do
  let slot ← Lower.entryAlloca ty
  let scanf ← Lower.runtime .scanf
  let format ← Lower.string format
  let _ ← Lower.emit (.call scanf [format, slot])
  Lower.emit (.load ty slot)

/-- Code for a call of a built-in subprogram. Nothing behind a HALT is reached. -/
def Subprogram.lowerBuiltin (name : String) (args : List Operand) : Lower (Option Operand) := do
  match name with
  | "PrintInteger" => Lower.print "%d" args; return none
  | "PrintReal" => Lower.print "%f" args; return none
  | "PrintString" => Lower.print "%s" args; return none
  | "PrintLine" => Lower.print "%s\n" args; return none
  | "ReadInteger" => return some (← Lower.read "%d" .i32)
  | "ReadReal" => return some (← Lower.read "%lf" .double)
  | "IntegerToReal" =>
    let some value := args[0]? | throw .missingArgument
    return some (← Lower.emit (.sitofp value))
  | "RealToInteger" =>
    let some value := args[0]? | throw .missingArgument
    return some (← Lower.emit (.fptosi value))
  | "HALT" =>
    let some value := args[0]? | throw .missingArgument
    let exit ← Lower.runtime .exit
    let _ ← Lower.emit (.call exit [value])
    Lower.terminate .unreachable
    return none
  | _ => throw (.unknownBuiltin name)

/-- Code for a call of a subprogram; it has a value unless the subprogram returns none. -/
def Subprogram.lowerCall (env : Env) (s : Subprogram) (args : List Operand) :
    Lower (Option Operand) := do
  if s.builtin then Subprogram.lowerBuiltin s.name args
  else
    let .function index ← env.lookup s.name | throw (.notAFunction s.name)
    let some callee := (← get).functions[index]? | throw (.notAFunction s.name)
    let value ← Lower.emit (.call callee.signature args)
    return if s.result == .void then none else some value

/-! ## Expressions -/

def Literal.lower : Literal → Lower Operand
  | integer value => return .int value
  | real value => return .real value
  | boolean value => return .bool value
  | string value => Lower.string value

/-- Code that changes the sign of a number. -/
def Lower.negate (type : DataType) (operand : Operand) : Lower Operand :=
  if type == .real then Lower.emit (.fneg operand)
  else Lower.emit (.binary .sub (.int 0) operand)

mutual

/-- Code for an expression. Operands are evaluated from left to right, both of them always. -/
def Expr.lower (env : Env) : Expr → Lower Operand
  | .literal _ value => value.lower
  | .paren _ inner => inner.lower env
  | .not _ operand => do Lower.invert (← operand.lower env)
  | .designator d => do
    let ty ← (← env.annotations.typeOf d.node.id).target
    let address ← d.address env
    Lower.emit (.load ty address)
  | .call c => do
    match ← c.lower env with
    | some value => return value
    | none => throw (.voidAsValue c.callee.name)
  | .comparison _ left op right => do
    let type ← env.annotations.typeOf left.id
    let leftValue ← left.lower env
    let rightValue ← right.lower env
    op.lower type leftValue rightValue
  | .sum _ negate first rest => do
    let value ← first.lower env
    let value ← if negate then do
        Lower.negate (← env.annotations.typeOf first.id) value
      else pure value
    let type ← env.annotations.typeOf first.id
    lowerChain env type value rest
  | .product _ first rest => do
    let value ← first.lower env
    let type ← env.annotations.typeOf first.id
    lowerChain env type value rest

/-- Code for the operands of a chain behind the first. -/
def lowerChain (env : Env) (type : DataType) (value : Operand) :
    List (BinOp × Expr) → Lower Operand
  | [] => return value
  | (op, operand) :: rest => do
    let operandValue ← operand.lower env
    let value ← op.lower type value operandValue
    lowerChain env type value rest

/-- Code for the address of a variable or of an element of it. -/
def Designator.address (env : Env) : Designator Expr → Lower Operand
  | ⟨node, _, selectors⟩ => do
    let v ← env.annotations.symbolOf Symbol.var? node.id
    match ← env.lookup v.name with
    | .storage address content => lowerSelectors env address content selectors
    | .function _ => throw (.notAddressable v.name)

/-- Code for the address that index selectors lead to. -/
def lowerSelectors (env : Env) (address : Operand) (content : Ty) :
    List Expr → Lower Operand
  | [] => return address
  | selector :: rest => do
    match content with
    | .array size elem =>
      let index ← selector.lower env
      let address ← Lower.elementPtr size elem address index
      lowerSelectors env address elem rest
    | _ => throw (.indexedNonArray content)

/-- Code for a call and its arguments. -/
def Call.lower (env : Env) : Call Expr → Lower (Option Operand)
  | ⟨node, _, args⟩ => do
    let s ← env.annotations.symbolOf Symbol.proc? node.id
    let values ← lowerArgs env args
    s.lowerCall env values

/-- Code for arguments, from left to right. -/
def lowerArgs (env : Env) : List Expr → Lower (List Operand)
  | [] => return []
  | arg :: rest => do
    let value ← arg.lower env
    return value :: (← lowerArgs env rest)

end

end Oberlet
