import Oberlet.Lowering.Program
import Oberlet.Proofs.Eval.Reference

/-!
# Execution of instructions

Registers hold values and addresses. A stack slot is a variable of its own, known by the register of
the instruction that makes it.
-/

namespace Oberlet

open Llvm Lowering Eval Action

namespace Eval

/-- What a register holds. -/
inductive Datum (π : Primitives)
  | value (v : Value π)
  | address (a : Address)

/-- What registers hold; instructions without result put nothing there. -/
abbrev Regs (π : Primitives) := Nat → Option (Datum π)

def Regs.put {π : Primitives} (regs : Regs π) (reg : Nat) (datum : Option (Datum π)) : Regs π :=
  fun other => if other = reg then datum else regs other

end Eval

variable {π : Primitives} {σ : Type}

namespace Llvm

/-- What an operand stands for. Parameters and initial values of variables are no operands of the
code of expressions, and stand for nothing here. -/
def Operand.datum? (strings : List String) (regs : Regs π) : Operand → Option (Datum π)
  | int value => some (.value (.int (.ofNat 32 value)))
  | bool value => some (.value (.bool value))
  | real value => some (.value (.real (π.real value)))
  | null => some (.value (.str none))
  | text index _ => do return .value (.str (some (π.text (← strings[index]?))))
  | global name _ => some (.address ⟨.global name, []⟩)
  | reg id _ => regs id
  | zero _ => none
  | param _ _ => none

def Operand.value (strings : List String) (regs : Regs π) (v : Operand) : Action π σ (Value π) :=
  match v.datum? strings regs with
  | some (.value value) => return value
  | _ => trap .illTyped

def Operand.address (strings : List String) (regs : Regs π) (v : Operand) : Action π σ Address :=
  match v.datum? strings regs with
  | some (.address address) => return address
  | _ => trap .illTyped

def Operand.constant (strings : List String) : Operand → Action π σ String
  | text index _ =>
    match strings[index]? with
    | some content => return content
    | none => trap .illTyped
  | _ => trap .illTyped

def Operand.values (strings : List String) (regs : Regs π) :
    List Operand → Action π σ (List (Value π))
  | [] => return []
  | v :: rest => do
    let value ← v.value strings regs
    return value :: (← values strings regs rest)

/-- Binary operations. Division is undefined where the quotient is no integer of 32 bits. -/
def BinaryOp.exec : BinaryOp → Value π → Value π → Except Trap (Value π)
  | add, .int a, .int b => return .int (a + b)
  | sub, .int a, .int b => return .int (a - b)
  | mul, .int a, .int b => return .int (a * b)
  | sdiv, .int a, .int b =>
    if b = 0 then throw .divisionByZero
    else if a = .intMin 32 ∧ b = -1 then throw .overflow
    else return .int (a.sdiv b)
  | srem, .int a, .int b =>
    if b = 0 then throw .divisionByZero
    else if a = .intMin 32 ∧ b = -1 then throw .overflow
    else return .int (a.srem b)
  | fadd, .real a, .real b => return .real (π.arith .add a b)
  | fsub, .real a, .real b => return .real (π.arith .sub a b)
  | fmul, .real a, .real b => return .real (π.arith .mul a b)
  | fdiv, .real a, .real b => return .real (π.arith .div a b)
  | frem, .real a, .real b => return .real (π.arith .mod a b)
  | and, .bool a, .bool b => return .bool (a && b)
  | or, .bool a, .bool b => return .bool (a || b)
  | xor, .bool a, .bool b => return .bool (a ^^ b)
  | _, _, _ => throw .illTyped

/-- Comparisons of integers, of truth values, and of strings with the null pointer. -/
def IntPred.exec : IntPred → Value π → Value π → Except Trap Bool
  | eq, .int a, .int b => return a == b
  | ne, .int a, .int b => return a != b
  | slt, .int a, .int b => return a.slt b
  | sle, .int a, .int b => return a.sle b
  | sgt, .int a, .int b => return b.slt a
  | sge, .int a, .int b => return b.sle a
  | eq, .bool a, .bool b => return a == b
  | eq, .str a, .str none => return a.isNone
  | _, _, _ => throw .illTyped

/-- The comparison of real numbers that a predicate is. -/
def RealPred.relOp : RealPred → RelOp
  | oeq => .eq
  | one => .neq
  | olt => .lt
  | ole => .ltEq
  | ogt => .gt
  | oge => .gtEq

end Llvm

def Runtime.named? (name : String) : Option Runtime :=
  if name = "printf" then some printf
  else if name = "scanf" then some scanf
  else if name = "exit" then some exit
  else if name = "strcmp" then some strcmp
  else none

def Runtime.exec (o : Oracle π σ) (strings : List String) (regs : Regs π) :
    Runtime → List Operand → Action π σ (Option (Datum π))
  | printf, [format, v] => do
    print o (← format.constant strings) (← v.value strings regs)
    return none
  | scanf, [format, slot] => do
    let address ← slot.address strings regs
    Action.store address (← read o (← format.constant strings))
    return none
  | exit, [v] => do halt (← v.value strings regs)
  | strcmp, [l, r] => do
    match ← l.value strings regs, ← r.value strings regs with
    | .str (some a), .str (some b) => return some (.value (.int (π.order a b)))
    | _, _ => trap .illTyped
  | _, _ => trap .illTyped

namespace Llvm

def Signature.exec (o : Oracle π σ) (strings : List String) (regs : Regs π) (callee : Signature)
    (args : List Operand) : Action π σ (Option (Datum π)) :=
  match Runtime.named? callee.name with
  | some f => f.exec o strings regs args
  | none => do
    let result ← call o callee.name (← Operand.values strings regs args)
    return result.map .value

theorem Signature.exec_runtime (o : Oracle π σ) (strings : List String) (regs : Regs π)
    (f : Runtime) (args : List Operand) :
    f.function.signature.exec o strings regs args = f.exec o strings regs args := by
  cases f <;> rfl

def Instr.exec (o : Oracle π σ) (strings : List String) (regs : Regs π) (reg : Nat) :
    Instr → Action π σ (Option (Datum π))
  | alloca _ => return some (.address ⟨.slot reg, []⟩)
  | load _ address => do return some (.value (← Action.load (← address.address strings regs)))
  | store v address => do
    Action.store (← address.address strings regs) (← v.value strings regs)
    return none
  | binary op l r => do
    let value ← Action.ofExcept (op.exec (← l.value strings regs) (← r.value strings regs))
    return some (.value value)
  | fneg v => do
    match ← v.value strings regs with
    | .real a => return some (.value (.real (π.neg a)))
    | _ => trap .illTyped
  | icmp pred l r => do
    let value ← Action.ofExcept (pred.exec (← l.value strings regs) (← r.value strings regs))
    return some (.value (.bool value))
  | fcmp pred l r => do
    match ← l.value strings regs, ← r.value strings regs with
    | .real a, .real b => return some (.value (.bool (π.compare pred.relOp a b)))
    | _, _ => trap .illTyped
  | select cond l r => do
    match ← cond.value strings regs with
    | .bool true => return some (.value (← l.value strings regs))
    | .bool false => return some (.value (← r.value strings regs))
    | _ => trap .illTyped
  | extractValue v _ index => do
    match ← v.value strings regs with
    | .array elems =>
      match elems[index]? with
      | some elem => return some (.value elem)
      | none => trap .outOfRange
    | _ => trap .illTyped
  | elementPtr size _ address index => do
    let address ← address.address strings regs
    match ← index.value strings regs with
    | .int index =>
      if 0 ≤ index.toInt ∧ index.toInt < size then
        return some (.address (address.element index.toInt.toNat))
      else trap .outOfRange
    | _ => trap .illTyped
  | sitofp v => do
    match ← v.value strings regs with
    | .int a => return some (.value (.real (π.ofInt a)))
    | _ => trap .illTyped
  | fptosi v => do
    match ← v.value strings regs with
    | .real a => return some (.value (.int (π.toInt a)))
    | _ => trap .illTyped
  | call callee args => callee.exec o strings regs args

end Llvm

def execute (o : Oracle π σ) (strings : List String) :
    List Line → Regs π → Action π σ (Regs π)
  | [], regs => return regs
  | line :: rest, regs => do
    let datum ← line.instr.exec o strings regs line.reg
    execute o strings rest (regs.put line.reg datum)

end Oberlet
