import Oberlet.Proofs.Eval.Value
import Oberlet.Proofs.Typing.Rules

/-!
# Evaluation of expressions

Expressions are evaluated strictly from left to right, also the operands of AND and OR. What a
called subprogram does is up to an oracle; it gets the values of the arguments, may change the
globals, and need not return. Evaluation leaves a trace of what was loaded and called.
-/

namespace Oberlet

namespace Eval

/-- Where a variable is kept: in a global, or in the stack slot of a register. -/
inductive Root
  | global (name : String)
  | slot (reg : Nat)
deriving DecidableEq, Repr

/-- The address of a variable or of a part of it. -/
structure Address where
  root : Root
  path : List Nat
deriving DecidableEq, Repr

def Address.element (a : Address) (index : Nat) : Address := ⟨a.root, a.path ++ [index]⟩

/-- What a trace consists of. -/
inductive Access (π : Primitives)
  | load (address : Address)
  | call (name : String) (args : List (Value π))
  | print (format : String) (value : Value π)
  | read (format : String)
  | halt (code : Value π)

/-- The memory, the world outside of the program, and what was loaded and called so far. -/
structure World (π : Primitives) (σ : Type) where
  globals : String → Value π
  slots : Nat → Value π
  outside : σ
  trace : List (Access π)

/-- What calls do. A function gets its arguments, the globals and the world outside, and changes the
latter two, if it returns; printing and reading change the world outside. -/
structure Oracle (π : Primitives) (σ : Type) where
  call : String → List (Value π) → (String → Value π) → σ →
    Option (Option (Value π) × (String → Value π) × σ)
  print : String → Value π → σ → σ
  read : String → σ → Value π × σ

/-- Why something does not come to its end: an operation has no value, or a call does not return. -/
inductive Halt (π : Primitives) (σ : Type)
  | trap (reason : Trap)
  | left (w : World π σ)

/-- Something that is done in a world. -/
abbrev Action (π : Primitives) (σ α : Type) := StateT (World π σ) (Except (Halt π σ)) α

variable {π : Primitives} {σ α : Type}

namespace World

def get (w : World π σ) : Root → Value π
  | .global name => w.globals name
  | .slot reg => w.slots reg

def set (w : World π σ) (v : Value π) : Root → World π σ
  | .global name => { w with globals := fun other => if other = name then v else w.globals other }
  | .slot reg => { w with slots := fun other => if other = reg then v else w.slots other }

def log (w : World π σ) (access : Access π) : World π σ := { w with trace := w.trace ++ [access] }

end World

namespace Action

/-- An operation has no value. -/
def trap (reason : Trap) : Action π σ α := throw (.trap reason)

/-- An operation that may have no value. -/
def ofExcept : Except Trap α → Action π σ α
  | .ok a => pure a
  | .error reason => trap reason

def load (a : Address) : Action π σ (Value π) := do
  let w ← get
  match (w.get a.root).part? a.path with
  | some v =>
    set (w.log (.load a))
    return v
  | none => trap .illTyped

/-- Stores a value at an address. -/
def store (a : Address) (v : Value π) : Action π σ Unit := do
  let w ← get
  match (w.get a.root).replace? a.path v with
  | some whole => set (w.set whole a.root)
  | none => trap .illTyped

/-- Calls a function. -/
def call (o : Oracle π σ) (name : String) (args : List (Value π)) :
    Action π σ (Option (Value π)) := do
  let w ← get
  let called := w.log (.call name args)
  match o.call name args w.globals w.outside with
  | some (result, globals, outside) =>
    set { called with globals, outside }
    return result
  | none => throw (.left called)

def print (o : Oracle π σ) (format : String) (v : Value π) : Action π σ Unit :=
  modify fun w => { w.log (.print format v) with outside := o.print format v w.outside }

def read (o : Oracle π σ) (format : String) : Action π σ (Value π) :=
  modifyGet fun w =>
    let (v, outside) := o.read format w.outside
    (v, { w.log (.read format) with outside })

/-- Ends the program. -/
def halt (code : Value π) : Action π σ α := do
  let w ← get
  throw (.left (w.log (.halt code)))

end Action

/-- What the names of a body stand for when it is run: where its variables are, what the functions
of its subprograms are called, and what they do. -/
structure Reference (π : Primitives) (σ : Type) where
  names : Names
  place : String → Option Root
  callee : String → String
  oracle : Oracle π σ

end Eval

open Eval

variable {π : Primitives} {σ : Type}

def Subprogram.evalBuiltin (o : Oracle π σ) : String → List (Value π) →
    Action π σ (Option (Value π))
  | "PrintInteger", [v] => do Action.print o "%d" v; return none
  | "PrintReal", [v] => do Action.print o "%f" v; return none
  | "PrintString", [v] => do Action.print o "%s" v; return none
  | "PrintLine", [v] => do Action.print o "%s\n" v; return none
  | "ReadInteger", [] => return some (← Action.read o "%d")
  | "ReadReal", [] => return some (← Action.read o "%lf")
  | "IntegerToReal", [.int v] => return some (.real (π.ofInt v))
  | "RealToInteger", [.real v] => return some (.int (π.toInt v))
  | "HALT", [v] => Action.halt v
  | _, _ => Action.trap .illTyped

/-- A call of a subprogram with given arguments. -/
def Subprogram.evalCall (r : Reference π σ) (s : Subprogram) (args : List (Value π)) :
    Action π σ (Option (Value π)) :=
  if s.builtin then evalBuiltin r.oracle s.name args
  else do
    let result ← Action.call r.oracle (r.callee s.name) args
    return if s.result = .void then none else result

mutual

def Expr.eval (r : Reference π σ) : Expr → Action π σ (Value π)
  | .literal _ value => return value.value π
  | .paren _ inner => inner.eval r
  | .not _ operand => do
    match ← operand.eval r with
    | .bool value => return .bool !value
    | _ => Action.trap .illTyped
  | .designator d => do Action.load (← d.locate r)
  | .call c => do
    match ← c.eval r with
    | some value => return value
    | none => Action.trap .illTyped
  | .comparison _ left op right => do
    let leftValue ← left.eval r
    let rightValue ← right.eval r
    return .bool (← Action.ofExcept (op.eval leftValue rightValue))
  | .sum _ negate first rest => do
    let value ← first.eval r
    let value ← if negate then Action.ofExcept value.negate else pure value
    evalChain r value rest
  | .product _ first rest => do
    let value ← first.eval r
    evalChain r value rest

def evalChain (r : Reference π σ) (value : Value π) :
    List (BinOp × Expr) → Action π σ (Value π)
  | [] => return value
  | (op, operand) :: rest => do
    let operandValue ← operand.eval r
    let value ← Action.ofExcept (op.eval value operandValue)
    evalChain r value rest

def Designator.locate (r : Reference π σ) : Designator Expr → Action π σ Address
  | ⟨_, name, selectors⟩ =>
    match r.names name.name with
    | some (.var v) =>
      match r.place v.name with
      | some root => locateIn r v.type ⟨root, []⟩ selectors
      | none => Action.trap .illTyped
    | _ => Action.trap .illTyped

/-- The address that selectors lead to inside of a value of a type. -/
def locateIn (r : Reference π σ) (type : DataType) (address : Address) :
    List Expr → Action π σ Address
  | [] => return address
  | selector :: rest => do
    match type, ← selector.eval r with
    | .array size elem, .int index =>
      if 0 ≤ index.toInt ∧ index.toInt < size then
        locateIn r elem (address.element index.toInt.toNat) rest
      else Action.trap .outOfRange
    | _, _ => Action.trap .illTyped

def Call.eval (r : Reference π σ) : Call Expr → Action π σ (Option (Value π))
  | ⟨_, callee, args⟩ =>
    match r.names callee.name with
    | some (.proc s) => do s.evalCall r (← evalArgs r args)
    | _ => Action.trap .illTyped

def evalArgs (r : Reference π σ) : List Expr → Action π σ (List (Value π))
  | [] => return []
  | arg :: rest => do
    let value ← arg.eval r
    return value :: (← evalArgs r rest)

end

/-- An assignment: the address is found before the value. -/
def evalAssign (r : Reference π σ) (target : Designator Expr) (value : Expr) : Action π σ Unit := do
  let address ← target.locate r
  Action.store address (← value.eval r)

end Oberlet
