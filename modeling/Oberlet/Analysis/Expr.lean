import Oberlet.Annotation
import Oberlet.Symbol.Table
import Oberlet.Tree.Basic

/-!
# Analysis of expressions

When an expression is wrong, the diagnostic is recorded and returned, so that what contains the
expression gives up too without recording anything again.
-/

namespace Oberlet

/-- What the analysis of a body produces: annotations, and diagnostics in the order found. -/
structure Notes where
  annotations : Annotations
  errors : List Diagnostic
deriving Repr

/-- An analysis that records what is wrong. -/
abbrev Checker (α : Type) := StateT Notes (Except Fault) α

/-- An analysis that returns what is wrong, having recorded it. -/
abbrev Typing (α : Type) := ExceptT Diagnostic Checker α

namespace Checker

/-- Adds a diagnostic to those found. -/
def record (d : Diagnostic) : Checker Unit :=
  modify fun notes => { notes with errors := notes.errors ++ [d] }

def report (span : Span) (cause : Diagnostic.Cause) : Checker Unit := record (.on span cause)

def annotateType (id : Nat) (type : DataType) : Checker Unit := do
  let notes ← get
  let annotations ← notes.annotations.annotateType id type
  set { notes with annotations }

def annotateSymbols (id : Nat) (symbols : List Symbol) : Checker Unit := do
  let notes ← get
  let annotations ← notes.annotations.annotateSymbols id symbols
  set { notes with annotations }

end Checker

namespace Typing

/-- Records what is wrong and gives up. -/
def refuse {α : Type} (span : Span) (cause : Diagnostic.Cause) : Typing α := do
  Checker.report span cause
  throw (.on span cause)

/-- Goes on where another analysis gives up. -/
def attempt {α : Type} (typing : Typing α) : Typing (Except Diagnostic α) :=
  ExceptT.lift typing.run

/-- The symbol of a name. -/
def resolve (table : SymbolTable) (name : Ident) : Typing Symbol :=
  match table.lookup name.name with
  | some symbol => return symbol
  | none => refuse name.span (.undefinedName name.name)

def resolveVar (table : SymbolTable) (name : Ident) : Typing Variable := do
  let symbol ← resolve table name
  match symbol with
  | .var v => return v
  | _ => refuse name.span (.notAVariable name.name symbol.kind)

def resolveProc (table : SymbolTable) (name : Ident) : Typing Subprogram := do
  let symbol ← resolve table name
  match symbol with
  | .proc s => return s
  | _ => refuse name.span (.notASubprogram name.name symbol.kind)

end Typing

/-- The types that an operator of a chain is for. -/
def BinOp.accepts (op : BinOp) (type : DataType) : Bool :=
  if op.isLogical then type == .boolean else type.isNumeric

open Typing (refuse)

mutual

/-- Resolves the names of an expression, computes its type and annotates its nodes. -/
def Expr.check (table : SymbolTable) : Expr → Typing DataType
  | .literal node value => do
    Checker.annotateType node.id value.type
    return value.type
  | .paren node inner => do
    let type ← inner.check table
    Checker.annotateType node.id type
    return type
  | .not node operand => do
    let type ← operand.check table
    if type != .boolean then refuse node.span (.badOperand .not type)
    Checker.annotateType node.id .boolean
    return .boolean
  | .designator d => d.check table
  | .call c => c.check table false
  | .comparison node left op right => do
    let leftType ← left.check table
    let rightType ← right.check table
    if leftType != rightType then refuse node.span (.cannotCompare leftType rightType)
    if op.isOrdering && !leftType.isNumeric then
      refuse node.span (.badOperand (.rel op) leftType)
    Checker.annotateType node.id .boolean
    return .boolean
  | .sum node negate first rest => do
    let type ← first.check table
    if negate && !type.isNumeric then refuse first.span (.cannotNegate type)
    checkChain table type first.span rest
    Checker.annotateType node.id type
    return type
  | .product node first rest => do
    let type ← first.check table
    checkChain table type first.span rest
    Checker.annotateType node.id type
    return type

/-- The type of a variable behind its selectors. -/
def Designator.check (table : SymbolTable) : Designator Expr → Typing DataType
  | ⟨node, name, selectors⟩ => do
    let v ← Typing.resolveVar table name
    Checker.annotateSymbols node.id [.var v]
    let type ← checkSelectors table node.span selectors v.type
    Checker.annotateType node.id type
    return type

/-- The type of a call. A call that is a statement `discards` its result, so that there need not
be one. -/
def Call.check (table : SymbolTable) (discards : Bool) : Call Expr → Typing DataType
  | ⟨node, callee, args⟩ => do
    let s ← Typing.resolveProc table callee
    Checker.annotateSymbols node.id [.proc s]
    if args.length != s.params.length then
      refuse node.span (.wrongArity s.name s.params.length args.length)
    checkArgs table s.name 1 args s.params
    if !discards && s.result == .void then refuse node.span (.noValue s.name)
    Checker.annotateType node.id s.result
    return s.result

/-- The operands of a chain behind the first. All have the type of the first, and every operator
accepts that type. `previous` is the span of the operand before. -/
def checkChain (table : SymbolTable) (type : DataType) (previous : Span) :
    List (BinOp × Expr) → Typing Unit
  | [] => return
  | (op, operand) :: rest => do
    let operandType ← operand.check table
    if type != operandType then
      refuse operand.span (.mismatchedOperands op type operandType)
    if !op.accepts type then
      refuse (previous.cover operand.span) (.badOperand (.bin op) type)
    checkChain table type operand.span rest

/-- The type that index selectors leave of a type. Whatever is wrong with an index, the designator
around it is analysed further. -/
def checkSelectors (table : SymbolTable) (whole : Span) :
    List Expr → DataType → Typing DataType
  | [], type => return type
  | selector :: rest, type => do
    match ← Typing.attempt (selector.check table) with
    | .ok indexType =>
      if indexType != .integer then Checker.report selector.span (.badIndex indexType)
    | .error _ => pure ()
    match type.elem? with
    | some elem => checkSelectors table whole rest elem
    | none => refuse whole (.notAnArray type)

/-- The arguments of a call, each of the type of its parameter. -/
def checkArgs (table : SymbolTable) (name : String) (number : Nat) :
    List Expr → List Variable → Typing Unit
  | arg :: args, param :: params => do
    let type ← arg.check table
    if type != param.type then
      refuse arg.span (.badArgument type number name param.type)
    checkArgs table name (number + 1) args params
  | _, _ => return

end

end Oberlet
