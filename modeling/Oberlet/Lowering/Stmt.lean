import Oberlet.Lowering.Expr

/-!
# Code for statements
-/

namespace Oberlet

open Llvm Lowering

/-- Code for a RETURN. Returning from the body of the module ends the program with success, and
the value is not evaluated. -/
def lowerReturn (env : Env) (value : Option Expr) : Lower Unit := do
  if env.isMain then Lower.terminate (.ret (some (.int 0)))
  else match value with
    | none => Lower.terminate (.ret none)
    | some value => Lower.terminate (.ret (some (← value.lower env)))

mutual

/-- Code for a statement, in the last block and further ones. -/
def Stmt.lower (env : Env) : Stmt → Lower Unit
  | .assign _ target value => do
    let address ← target.address env
    Lower.store (← value.lower env) address
  | .call _ c => do
    let _ ← c.lower env
  | .ite _ branches otherwise => do
    let behind ← Lower.newBlock
    let first ← Lower.newBlock
    Lower.terminate (.br first)
    let next ← lowerBranches env behind otherwise.isSome first branches
    match otherwise with
    | some body =>
      Lower.startBlock next "if.else"
      lowerStmts env body
      Lower.branchTo behind
    | none => pure ()
    Lower.startBlock behind "if.end"
  | .loop _ cond body => do
    let test ← Lower.newBlock
    let inside ← Lower.newBlock
    let behind ← Lower.newBlock
    Lower.terminate (.br test)
    Lower.startBlock test "while.cond"
    let value ← cond.lower env
    Lower.terminate (.condBr value inside behind)
    Lower.startBlock inside "while.body"
    lowerStmts { env with loopExits := behind :: env.loopExits } body
    Lower.branchTo test
    Lower.startBlock behind "while.end"
  | .exit _ =>
    match env.loopExits with
    | behind :: _ => Lower.terminate (.br behind)
    | [] => throw .exitOutsideLoop
  | .ret _ value => lowerReturn env value

/-- Code for the branches of an IF statement. The condition of a branch is evaluated in the block
`next`, and a false one leads to the next branch, to the ELSE or, when there is neither, behind
the statement. Returns the block that the last condition leads to. -/
def lowerBranches (env : Env) (behind : Nat) (hasElse : Bool) (next : Nat) :
    List (Branch Stmt) → Lower Nat
  | [] => return next
  | ⟨_, cond, body⟩ :: rest => do
    Lower.startBlock next "if.cond"
    let value ← cond.lower env
    let otherwise ← if rest.isEmpty && !hasElse then pure behind else Lower.newBlock
    let inside ← Lower.newBlock
    Lower.terminate (.condBr value inside otherwise)
    Lower.startBlock inside "if.then"
    lowerStmts env body
    Lower.branchTo behind
    lowerBranches env behind hasElse otherwise rest

/-- Code for statements. Nothing is generated behind one that ends the block it is in. -/
def lowerStmts (env : Env) : List Stmt → Lower Unit
  | [] => return
  | stmt :: rest => do
    if ← Lower.terminated then return
    stmt.lower env
    lowerStmts env rest

end

end Oberlet
