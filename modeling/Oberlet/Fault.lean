import Oberlet.Llvm.Ty
import Oberlet.Symbol.Basic
import Oberlet.Tree.Operator

/-!
# Faults of the compiler

A diagnostic is about the text of a program. A fault is about the compiler: one of its stages was
handed something that the stage before it should have refused. No text leads to one.
-/

namespace Oberlet

/-- What a stage of the compiler can be handed and does not expect. -/
inductive Fault
  | arrayOfVoid
  | definedTwice (name : String)
  | unknownSymbolKind
  | universeExited
  | invalidNode (id : Int)
  | symbolsTwice (id : Int)
  | unknownType (id : Int)
  | typeTwice (id : Int)
  | noType (id : Int)
  | noSymbols (id : Int)
  | wrongSymbolKind (name : String) (id : Int) (kind : Symbol.Kind)
  | notOneSymbol (id : Int) (count : Nat)
  | unitHasErrors (name : String)
  | noBinding (name : String)
  | noFunction (name : String)
  | exitOutsideLoop
  | voidAsValue (name : String)
  | notAddressable (name : String)
  | indexedNonArray (type : Llvm.Ty)
  | undefinedOperator (op : Operator) (type : DataType)
  | noEquality (type : DataType)
  | notAFunction (name : String)
  | unknownBuiltin (name : String)
  | unknownTarget (type : DataType)
  | noZeroValue (type : DataType)
  | illTyped
  | missingParameter
  | missingArgument
deriving DecidableEq, Repr, Inhabited

namespace Fault

/-- The message of a fault that a stage notices. The others are breaches of a condition that a stage
takes for granted, such as an instruction with operands of the wrong type. -/
def message? : Fault → Option String
  | arrayOfVoid => some "array element type cannot be VOID"
  | definedTwice name => some s!"subprogram `{name}` defined twice"
  | unknownSymbolKind => some "unknown symbol kind: <nil>"
  | universeExited => some "exited the universe scope"
  | invalidNode id => some s!"invalid node id: {id}"
  | symbolsTwice id => some s!"node {id} annotated with symbols twice"
  | unknownType id => some s!"node {id} annotated with a nil type"
  | typeTwice id => some s!"node {id} annotated with a type twice"
  | noType id => some s!"node {id} has no type annotation"
  | noSymbols id => some s!"node {id} has no symbol annotation"
  | wrongSymbolKind name id kind => some s!"symbol `{name}` on node {id} is a {kind.text}"
  | notOneSymbol id count => some s!"expected exactly one symbol on node {id} but got {count}"
  | unitHasErrors name => some s!"generating module `{name}` which has errors"
  | noBinding name => some s!"no binding for `{name}`"
  | noFunction name => some s!"subprogram `{name}` has no function"
  | exitOutsideLoop => some "EXIT outside of a loop"
  | voidAsValue name => some s!"call to `{name}` used as a value"
  | notAddressable name => some s!"`{name}` is not addressable"
  | indexedNonArray type => some s!"indexing into non-array type {type.text}"
  | undefinedOperator op type => some s!"operator `{op.text}` is not defined for {type.text}"
  | noEquality type => some s!"no equality for {type.text}"
  | notAFunction name => some s!"`{name}` is not bound to a function"
  | unknownBuiltin name => some s!"unknown built-in subprogram: `{name}`"
  | unknownTarget type => some s!"unable to convert type: {type.text}"
  | noZeroValue type => some s!"type {type.text} has no zero value"
  | illTyped => none
  | missingParameter => none
  | missingArgument => none

/-- How the message of a fault is shown. -/
def internalText (message : String) : String := "internal compiler error: " ++ message

end Fault

/-- An array type; its elements cannot be `void`. -/
def DataType.arrayOf (elem : DataType) (size : Int) : Except Fault DataType :=
  if elem == .void then throw .arrayOfVoid else return .array size elem

/-- Attaches a body to a subprogram that has none. -/
def Subprogram.define (s : Subprogram) : Except Fault Subprogram :=
  if s.defined then throw (.definedTwice s.name) else return { s with defined := true }

end Oberlet
