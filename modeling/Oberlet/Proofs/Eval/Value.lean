import Oberlet.Tree.Basic

/-!
# Values

Integers are words of 32 bits in two's complement. The operations on REAL and STRING values are
parameters, of which nothing is assumed. A string that was never assigned counts as the empty one.
-/

namespace Oberlet

namespace Eval

/-- The operations on REAL and STRING values. The order of two strings is zero if they are equal. -/
structure Primitives where
  Real : Type
  Str : Type
  real : Binary64 → Real
  neg : Real → Real
  arith : BinOp → Real → Real → Real
  compare : RelOp → Real → Real → Bool
  ofInt : BitVec 32 → Real
  toInt : Real → BitVec 32
  text : String → Str
  order : Str → Str → BitVec 32

/-- The values of expressions. -/
inductive Value (π : Primitives)
  | int (value : BitVec 32)
  | bool (value : Bool)
  | real (value : π.Real)
  | str (value : Option π.Str)
  | array (elems : List (Value π))

/-- Why an operation has no value. The last reason is none that a well-typed program meets. -/
inductive Trap
  | divisionByZero | overflow | outOfRange | illTyped
deriving DecidableEq, Repr

variable {π : Primitives}

namespace Value

/-- A value is one of a type. -/
inductive Fits : Value π → DataType → Prop
  | int {value : BitVec 32} : Fits (.int value) .integer
  | bool {value : Bool} : Fits (.bool value) .boolean
  | real {value : π.Real} : Fits (.real value) .real
  | str {value : Option π.Str} : Fits (.str value) .string
  | array {elems : List (Value π)} {size : Int} {elem : DataType} :
      (elems.length : Int) = size → (∀ v ∈ elems, Fits v elem) →
        Fits (.array elems) (.array size elem)

/-- The part of a value that indices lead to, the outermost first. -/
def part? : Value π → List Nat → Option (Value π)
  | v, [] => some v
  | array elems, index :: path => do (← elems[index]?).part? path
  | _, _ :: _ => none

/-- A value with another one in place of the part that indices lead to. -/
def replace? : Value π → List Nat → Value π → Option (Value π)
  | _, [], new => some new
  | array elems, index :: path, new => do
    return array (elems.set index (← (← elems[index]?).replace? path new))
  | _, _ :: _, _ => none

mutual

/-- Whether two values are equal. Strings are compared by order, and arrays element by element. -/
def equal : Value π → Value π → Bool
  | int a, int b => a == b
  | bool a, bool b => a == b
  | real a, real b => π.compare .eq a b
  | str a, str b => π.order (a.getD (π.text "")) (b.getD (π.text "")) == 0
  | array a, array b => equalAll a b
  | _, _ => false

def equalAll : List (Value π) → List (Value π) → Bool
  | [], [] => true
  | a :: as, b :: bs => a.equal b && equalAll as bs
  | _, _ => false

end

/-! ## Values of types -/

theorem Fits.same {t : DataType} {u v : Value π} (hu : u.Fits t) (hv : v.Fits t) {t' : DataType}
    (h : u.Fits t') : v.Fits t' := by
  induction hu generalizing v t' with
  | int | bool | real | str =>
    cases hv
    cases h
    constructor
  | @array elems size elem hlength _ ih =>
    cases hv with
    | @array elems' _ _ hlength' helems' =>
    cases h with
    | @array _ _ elem' hsize helems'' =>
    refine .array (hlength'.trans (hlength.symm.trans hsize)) fun w hw => ?_
    -- an array with elements has a type of elements
    obtain ⟨u, hu⟩ : ∃ u, u ∈ elems := by
      refine List.exists_mem_of_length_pos ?_
      have := List.length_pos_of_mem hw
      omega
    exact ih u hu (helems' w hw) (helems'' u hu)

theorem part?_append (x : Value π) (front back : List Nat) :
    x.part? (front ++ back) = (x.part? front).bind (·.part? back) := by
  induction front generalizing x with
  | nil => cases x <;> rfl
  | cons index front ih =>
    cases x with
    | array elems =>
      rw [List.cons_append, part?, part?]
      cases elems[index]? with
      | none => rfl
      | some elem => exact ih elem
    | _ => rfl

theorem exists_replace? {path : List Nat} {x u v : Value π} (hpart : x.part? path = some u)
    (hv : ∀ t, u.Fits t → v.Fits t) :
    ∃ y, x.replace? path v = some y ∧ ∀ t, x.Fits t → y.Fits t := by
  induction path generalizing x with
  | nil =>
    cases hpart
    exact ⟨v, rfl, hv⟩
  | cons index path ih =>
    cases x with
    | array elems =>
      rw [part?] at hpart
      obtain ⟨elem, helem, hpart⟩ := Option.bind_eq_some_iff.mp hpart
      obtain ⟨new, hnew, hfits⟩ := ih hpart
      refine ⟨array (elems.set index new), by simp [replace?, helem, hnew], fun t ht => ?_⟩
      cases ht with
      | array hlength helems =>
        refine .array (by simpa using hlength) fun w hw => ?_
        rcases List.mem_or_eq_of_mem_set hw with hw | rfl
        · exact helems w hw
        · exact hfits _ (helems elem (List.mem_of_getElem? helem))
    | _ => cases hpart

end Value

end Eval

open Eval

variable {π : Primitives}

def Literal.value (π : Primitives) : Literal → Value π
  | integer value => .int (.ofNat 32 value)
  | real value => .real (π.real value)
  | string value => .str (some (π.text value))
  | boolean value => .bool value

def BinOp.evalInt (op : BinOp) (a b : BitVec 32) : Except Trap (BitVec 32) :=
  let quotient (f : BitVec 32 → BitVec 32 → BitVec 32) : Except Trap (BitVec 32) :=
    if b = 0 then throw .divisionByZero
    else if a = .intMin 32 ∧ b = -1 then throw .overflow
    else return f a b
  match op with
  | add => return a + b
  | sub => return a - b
  | mul => return a * b
  | div => quotient .sdiv
  | mod => quotient .srem
  | or => throw .illTyped
  | and => throw .illTyped

example : BinOp.div.evalInt (-7) 2 = .ok (-3) := rfl

example : BinOp.mod.evalInt (-7) 2 = .ok (-1) := rfl

def BinOp.eval (op : BinOp) : Value π → Value π → Except Trap (Value π)
  | .int a, .int b => return .int (← op.evalInt a b)
  | .real a, .real b => if op.isLogical then throw .illTyped else return .real (π.arith op a b)
  | .bool a, .bool b =>
    match op with
    | or => return .bool (a || b)
    | and => return .bool (a && b)
    | _ => throw .illTyped
  | _, _ => throw .illTyped

def RelOp.evalInt : RelOp → BitVec 32 → BitVec 32 → Bool
  | eq, a, b => a == b
  | neq, a, b => a != b
  | lt, a, b => a.slt b
  | ltEq, a, b => a.sle b
  | gt, a, b => b.slt a
  | gtEq, a, b => b.sle a

def RelOp.eval (op : RelOp) : Value π → Value π → Except Trap Bool
  | .int a, .int b => return op.evalInt a b
  | .real a, .real b => return π.compare op a b
  | a, b =>
    match op with
    | eq => return a.equal b
    | neq => return !a.equal b
    | _ => throw .illTyped

def Eval.Value.negate : Value π → Except Trap (Value π)
  | .int a => return .int (-a)
  | .real a => return .real (π.neg a)
  | _ => throw .illTyped

end Oberlet
