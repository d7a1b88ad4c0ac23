import Oberlet.Analysis.Expr

/-!
# Analysis of statements

A diagnostic in one statement never keeps the next from being analysed. The symbol table is not
changed by a statement.
-/

namespace Oberlet

/-- What a statement has to know about the code around it: the subprogram or module that it
belongs to, the type a RETURN gives, and whether there is a loop to leave. -/
structure BodyContext where
  name : String
  result : DataType
  inLoop : Bool
deriving DecidableEq, Repr

/-- What an analysis finds, unless it gives up. -/
def Typing.type? {α : Type} (typing : Typing α) : Checker (Option α) := do
  match ← typing.run with
  | .ok type => return some type
  | .error _ => return none

/-- A condition must be a truth value. -/
def Expr.checkGuard (table : SymbolTable) (cond : Expr) : Checker Unit := do
  match ← (cond.check table).type? with
  | some type => if type != .boolean then Checker.report cond.span (.badCondition type)
  | none => return

/-- A value is assigned to a variable of its own type. -/
def checkAssign (table : SymbolTable) (node : Node) (target : Designator Expr) (value : Expr) :
    Typing Unit := do
  let targetType ← target.check table
  let valueType ← value.check table
  if targetType != valueType then
    Checker.report node.span (.cannotAssign valueType targetType)

/-- A RETURN gives the type that its subprogram returns. -/
def checkReturn (table : SymbolTable) (context : BodyContext) (node : Node)
    (value : Option Expr) : Typing Unit := do
  let type ← match value with
    | some value => value.check table
    | none => pure .void
  if type != context.result then
    Checker.report node.span (.cannotReturn type context.name context.result)

mutual

/-- Records what is wrong with a statement. -/
def Stmt.check (table : SymbolTable) (context : BodyContext) : Stmt → Checker Unit
  | .assign node target value => do
    let _ ← (checkAssign table node target value).type?
  | .call _ c => do
    let _ ← (c.check table true).type?
  | .ite _ branches otherwise => do
    checkBranches table context branches
    match otherwise with
    | some body => checkStmts table context body
    | none => return
  | .loop _ cond body => do
    cond.checkGuard table
    checkStmts table { context with inLoop := true } body
  | .exit node => do
    if !context.inLoop then Checker.report node.span .exitOutsideLoop
  | .ret node value => do
    let _ ← (checkReturn table context node value).type?

def checkBranches (table : SymbolTable) (context : BodyContext) :
    List (Branch Stmt) → Checker Unit
  | [] => return
  | ⟨_, cond, body⟩ :: rest => do
    cond.checkGuard table
    checkStmts table context body
    checkBranches table context rest

/-- Analyses statements in order, each for itself. -/
def checkStmts (table : SymbolTable) (context : BodyContext) : List Stmt → Checker Unit
  | [] => return
  | stmt :: rest => do
    stmt.check table context
    checkStmts table context rest

end

end Oberlet
