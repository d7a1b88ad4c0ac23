import Oberlet.Decimal.Binary64
import Oberlet.Llvm.Ty

/-!
# Instructions of the target language

In the text of a function, the registers that hold a value are numbered by their position, and a
label is made of the stem of its block and the block's position.
-/

namespace Oberlet.Llvm

/-- What an instruction works on. -/
inductive Operand
  | int (value : Nat)
  | bool (value : Bool)
  | real (value : Binary64)
  | null
  | zero (ty : Ty)
  | text (index size : Nat)
  | global (name : String) (content : Ty)
  | param (index : Nat) (ty : Ty)
  | reg (id : Nat) (ty : Ty)
deriving DecidableEq, Repr

namespace Operand

/-- The type of an operand. -/
def ty : Operand → Ty
  | int _ => .i32
  | bool _ => .i1
  | real _ => .double
  | null => .charPtr
  | zero ty => ty
  | text _ _ => .charPtr
  | global _ content => .ptr content
  | param _ ty => ty
  | reg _ ty => ty

end Operand

inductive BinaryOp
  | add | sub | mul | sdiv | srem
  | fadd | fsub | fmul | fdiv | frem
  | and | or | xor
deriving DecidableEq, Repr

inductive IntPred
  | eq | ne | slt | sle | sgt | sge
deriving DecidableEq, Repr

inductive RealPred
  | oeq | one | olt | ole | ogt | oge
deriving DecidableEq, Repr

/-- What a call has to know of a function. -/
structure Signature where
  name : String
  result : Ty
  params : List Ty
  variadic : Bool
deriving DecidableEq, Repr

/-- Instructions. An `elementPtr` is the address of one element of an array in memory. -/
inductive Instr
  | alloca (content : Ty)
  | load (content : Ty) (address : Operand)
  | store (value address : Operand)
  | binary (op : BinaryOp) (left right : Operand)
  | fneg (operand : Operand)
  | icmp (pred : IntPred) (left right : Operand)
  | fcmp (pred : RealPred) (left right : Operand)
  | select (cond left right : Operand)
  | extractValue (aggregate : Operand) (elem : Ty) (index : Nat)
  | elementPtr (size : Nat) (elem : Ty) (address index : Operand)
  | sitofp (operand : Operand)
  | fptosi (operand : Operand)
  | call (callee : Signature) (args : List Operand)
deriving DecidableEq, Repr

namespace Instr

/-- The type of the value that an instruction gives; `void` when it gives none. -/
def ty : Instr → Ty
  | alloca content => .ptr content
  | load content _ => content
  | store _ _ => .void
  | binary _ left _ => left.ty
  | fneg operand => operand.ty
  | icmp _ _ _ => .i1
  | fcmp _ _ _ => .i1
  | select _ left _ => left.ty
  | extractValue _ elem _ => elem
  | elementPtr _ elem _ _ => .ptr elem
  | sitofp _ => .double
  | fptosi _ => .i32
  | call callee _ => callee.result

/-- The operands that an instruction reads. -/
def operands : Instr → List Operand
  | alloca _ => []
  | load _ address => [address]
  | store value address => [value, address]
  | binary _ left right => [left, right]
  | fneg operand => [operand]
  | icmp _ left right => [left, right]
  | fcmp _ left right => [left, right]
  | select cond left right => [cond, left, right]
  | extractValue aggregate _ _ => [aggregate]
  | elementPtr _ _ address index => [address, index]
  | sitofp operand => [operand]
  | fptosi operand => [operand]
  | call _ args => args

end Instr

/-- Where to go from the end of a block. -/
inductive Terminator
  | br (target : Nat)
  | condBr (cond : Operand) (ifTrue ifFalse : Nat)
  | ret (value : Option Operand)
  | unreachable
deriving DecidableEq, Repr

/-- An instruction is known by its register, a number that no other instruction of the module has.
-/
structure Line where
  reg : Nat
  instr : Instr
deriving DecidableEq, Repr

/-- A list of instructions with a terminator, known by its id. -/
structure Block where
  id : Nat
  stem : String
  lines : List Line
  term : Option Terminator
deriving DecidableEq, Repr

def Block.empty (id : Nat) (stem : String) : Block := ⟨id, stem, [], none⟩

structure Param where
  name : String
  ty : Ty
deriving DecidableEq, Repr

/-- A function; one without blocks is only declared. -/
structure Function where
  name : String
  result : Ty
  params : List Param
  variadic : Bool
  blocks : List Block
deriving DecidableEq, Repr

def Function.signature (f : Function) : Signature :=
  ⟨f.name, f.result, f.params.map (·.ty), f.variadic⟩

/-- A variable of the module or a string constant. -/
inductive Global
  | var (name : String) (init : Operand)
  | str (index : Nat) (content : String)
deriving DecidableEq, Repr

structure Module where
  name : String
  globals : List Global
  functions : List Function
deriving DecidableEq, Repr

end Oberlet.Llvm
