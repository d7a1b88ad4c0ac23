import Oberlet.Annotation
import Oberlet.Llvm.Instr

/-!
# Building functions of the target language

Code is generated into the last block of the function at hand; once a new block is started, the
blocks before it change no more, except that a stack slot may still be added to the first.
-/

namespace Oberlet

open Llvm

namespace DataType

/-- The number of sizes that an array of the target can have. -/
def sizeCount : Int := 18446744073709551616

/-- The type of the target language for a type. -/
def target : DataType → Except Fault Ty
  | integer => return .i32
  | real => return .double
  | string => return .charPtr
  | boolean => return .i1
  | void => return .void
  | unknown => throw (.unknownTarget unknown)
  | array size elem => return .array (size % sizeCount).toNat (← elem.target)

/-- The initial value of a variable. -/
def zeroValue : DataType → Except Fault Operand
  | integer => return .int 0
  | real => return .real .zero
  | string => return .null
  | boolean => return .bool false
  | void => throw (.noZeroValue void)
  | unknown => throw (.noZeroValue unknown)
  | array size elem => return .zero (← (array size elem).target)

end DataType

/-- The functions of the host runtime. -/
inductive Runtime
  | printf | scanf | exit | strcmp
deriving DecidableEq, Repr

def Runtime.function : Runtime → Function
  | printf => ⟨"printf", .i32, [⟨"format", .charPtr⟩], true, []⟩
  | scanf => ⟨"scanf", .i32, [⟨"format", .charPtr⟩], true, []⟩
  | exit => ⟨"exit", .void, [⟨"code", .i32⟩], false, []⟩
  | strcmp => ⟨"strcmp", .i32, [⟨"a", .charPtr⟩, ⟨"b", .charPtr⟩], false, []⟩

namespace Lowering

/-- What a name stands for while code is generated: storage with the type of its content, or the
function with a given number. -/
inductive Binding
  | storage (address : Operand) (content : Ty)
  | function (index : Nat)
deriving DecidableEq, Repr

/-- What the names of a scope stand for. -/
abbrev Scope := List (String × Binding)

/-- What is done to a block: it is started, gets an instruction, or is ended. -/
inductive Edit
  | start
  | append (line : Line)
  | finish (term : Terminator)
deriving DecidableEq, Repr

/-- What code generation produces: the module so far, its interned strings, counters for registers
and blocks, the function at hand with the blocks before the last and the last, and all that was done
to blocks so far, each time with the id of the block. -/
structure State where
  globals : List Global
  functions : List Function
  strings : List String
  nextReg : Nat
  nextBlock : Nat
  function : Nat
  done : List Block
  block : Block
  edits : List (Nat × Edit)
deriving Repr

def State.initial : State :=
  { globals := []
    functions := []
    strings := []
    nextReg := 0
    nextBlock := 0
    function := 0
    done := []
    block := .empty 0 ""
    edits := [] }

/-- What code generation reads: the annotations of the tree, the scopes from the inside out, the
blocks behind the loops around the code from the inside out, and whether the code is the body of
the module. -/
structure Env where
  annotations : Annotations
  scopes : List Scope
  loopExits : List Nat
  isMain : Bool
deriving Repr

/-- What a name stands for, from the innermost scope outwards. -/
def Env.lookup (env : Env) (name : String) : Except Fault Binding :=
  match env.scopes.findSome? fun scope => List.lookup name scope with
  | some binding => return binding
  | none => throw (.noBinding name)

end Lowering

/-- Code generation. -/
abbrev Lower (α : Type) := StateT Lowering.State (Except Fault) α

namespace Lower

/-! ## Instructions -/

def freshReg : Lower Nat :=
  modifyGet fun s => (s.nextReg, { s with nextReg := s.nextReg + 1 })

/-- Adds an instruction and returns its value. -/
def emit (instr : Instr) : Lower Operand := do
  let reg ← freshReg
  let line : Line := ⟨reg, instr⟩
  modify fun s =>
    { s with
      block := { s.block with lines := s.block.lines ++ [line] }
      edits := s.edits ++ [(s.block.id, .append line)] }
  return .reg reg instr.ty

/-- Adds a stack slot to the first block. -/
def entryAlloca (content : Ty) : Lower Operand := do
  let reg ← freshReg
  let line : Line := ⟨reg, .alloca content⟩
  modify fun s => match s.done with
    | [] =>
      { s with
        block := { s.block with lines := s.block.lines ++ [line] }
        edits := s.edits ++ [(s.block.id, .append line)] }
    | entry :: rest =>
      { s with
        done := { entry with lines := entry.lines ++ [line] } :: rest
        edits := s.edits ++ [(entry.id, .append line)] }
  return .reg reg (.ptr content)

/-- Stores a value. The address must be one of a value of its type. -/
def store (value address : Operand) : Lower Unit := do
  if address.ty != .ptr value.ty then throw .illTyped
  let _ ← emit (.store value address)

def icmp (pred : IntPred) (left right : Operand) : Lower Operand := do
  match left.ty with
  | .i1 | .i8 | .i32 | .ptr _ => emit (.icmp pred left right)
  | _ => throw .illTyped

def fcmp (pred : RealPred) (left right : Operand) : Lower Operand := do
  match left.ty with
  | .double => emit (.fcmp pred left right)
  | _ => throw .illTyped

def extractValue (aggregate : Operand) (index : Nat) : Lower Operand := do
  match aggregate.ty with
  | .array _ elem => emit (.extractValue aggregate elem index)
  | _ => throw .illTyped

/-- The address of an element of an array in memory. A constant index must not be a real number. -/
def elementPtr (size : Nat) (elem : Ty) (address index : Operand) : Lower Operand := do
  match index with
  | .real _ => throw .illTyped
  | _ => emit (.elementPtr size elem address index)

/-! ## Blocks -/

def newBlock : Lower Nat :=
  modifyGet fun s => (s.nextBlock, { s with nextBlock := s.nextBlock + 1 })

/-- Starts a block behind the others. -/
def startBlock (id : Nat) (stem : String) : Lower Unit :=
  modify fun s =>
    { s with
      done := s.done ++ [s.block]
      block := .empty id stem
      edits := s.edits ++ [(id, .start)] }

/-- Ends the block at hand. -/
def terminate (term : Terminator) : Lower Unit :=
  modify fun s =>
    { s with
      block := { s.block with term := some term }
      edits := s.edits ++ [(s.block.id, .finish term)] }

def terminated : Lower Bool := return (← get).block.term.isSome

/-- Leads to a block, unless the block at hand is ended already. -/
def branchTo (target : Nat) : Lower Unit := do
  if !(← terminated) then terminate (.br target)

/-! ## Functions and globals -/

def addFunction (f : Function) : Lower Nat :=
  modifyGet fun s => (s.functions.length, { s with functions := s.functions ++ [f] })

/-- Begins to generate the body of a function, behind the blocks that it may have already. -/
def beginFunction (index : Nat) : Lower Unit := do
  let id ← newBlock
  modify fun s =>
    { s with
      function := index
      done := (s.functions[index]?.map (·.blocks)).getD []
      block := .empty id "entry"
      edits := s.edits ++ [(id, .start)] }

/-- Gives a function the blocks that were generated for it. -/
def endFunction : Lower Unit :=
  modify fun s =>
    { s with
      functions := s.functions.modify s.function fun f =>
        { f with blocks := s.done ++ [s.block] } }

/-- A string constant. Equal texts are one global. -/
def string (text : String) : Lower Operand := do
  let s ← get
  let size := text.utf8ByteSize + 1
  if text ∈ s.strings then return .text (s.strings.idxOf text) size
  else
    let index := s.strings.length
    set { s with strings := s.strings ++ [text], globals := s.globals ++ [Global.str index text] }
    return .text index size

/-- A function of the host runtime, declared when it is first called. -/
def runtime (r : Runtime) : Lower Signature := do
  let s ← get
  if r.function.signature ∉ s.functions.map (·.signature) then
    set { s with functions := s.functions ++ [r.function] }
  return r.function.signature

end Lower

end Oberlet
