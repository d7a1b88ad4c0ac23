import Oberlet.DataType
import Oberlet.Decimal.Binary64
import Oberlet.Source.Span
import Oberlet.Tree.Operator

/-!
# Syntax trees
-/

namespace Oberlet

/-- Every node of a tree has an id of its own and the span of the text it was read from. -/
structure Node where
  id : Nat
  span : Span
deriving DecidableEq, Repr

/-- A supply of node ids, counting up from zero. -/
structure NodeIds where
  count : Nat
deriving DecidableEq, Repr

def NodeIds.none : NodeIds := ⟨0⟩

def NodeIds.fresh (ids : NodeIds) : Nat × NodeIds := (ids.count, ⟨ids.count + 1⟩)

/-- An identifier is not a node, it only records where a name was written. -/
structure Ident where
  name : String
  span : Span
deriving DecidableEq, Repr

inductive Literal
  | integer (value : Nat)
  | real (value : Binary64)
  | string (value : String)
  | boolean (value : Bool)
deriving DecidableEq, Repr

def Literal.type : Literal → DataType
  | integer _ => .integer
  | real _ => .real
  | string _ => .string
  | boolean _ => .boolean

/-- A variable with index selectors. -/
structure Designator (ε : Type) where
  node : Node
  name : Ident
  selectors : List ε
deriving Repr

structure Call (ε : Type) where
  node : Node
  callee : Ident
  args : List ε
deriving Repr

/-- Expressions. A sum or a product stands for a whole chain of operands: the first one, and then
each further operand with the operator before it. -/
inductive Expr
  | literal (node : Node) (value : Literal)
  | paren (node : Node) (inner : Expr)
  | not (node : Node) (operand : Expr)
  | designator (d : Designator Expr)
  | call (c : Call Expr)
  | comparison (node : Node) (left : Expr) (op : RelOp) (right : Expr)
  | sum (node : Node) (negate : Bool) (first : Expr) (rest : List (BinOp × Expr))
  | product (node : Node) (first : Expr) (rest : List (BinOp × Expr))
deriving Repr

def Expr.node : Expr → Node
  | literal node _ => node
  | paren node _ => node
  | not node _ => node
  | designator d => d.node
  | call c => c.node
  | comparison node _ _ _ => node
  | sum node _ _ _ => node
  | product node _ _ => node

def Expr.id (e : Expr) : Nat := e.node.id

def Expr.span (e : Expr) : Span := e.node.span

/-- A condition with the statements that it guards. -/
structure Branch (σ : Type) where
  node : Node
  cond : Expr
  body : List σ
deriving Repr

/-- Statements. An IF statement without ELSE differs from one whose ELSE holds nothing. -/
inductive Stmt
  | assign (node : Node) (target : Designator Expr) (value : Expr)
  | call (node : Node) (c : Call Expr)
  | ite (node : Node) (branches : List (Branch Stmt)) (otherwise : Option (List Stmt))
  | loop (node : Node) (cond : Expr) (body : List Stmt)
  | exit (node : Node)
  | ret (node : Node) (value : Option Expr)
deriving Repr

/-- A declaration of variables of one type. -/
structure VarDecl where
  node : Node
  names : List Ident
  type : DataType
deriving Repr

/-- The heading of a subprogram. The result is `void` when none is given. -/
structure Heading where
  node : Node
  name : Ident
  params : List VarDecl
  result : DataType
deriving Repr

/-- A subprogram that is only declared, or one with a body. -/
inductive SubprogramDecl
  | forward (node : Node) (heading : Heading)
  | definition (node : Node) (heading : Heading) (vars : List VarDecl) (body : List Stmt)
deriving Repr

def SubprogramDecl.node : SubprogramDecl → Node
  | forward node _ => node
  | definition node _ _ _ => node

def SubprogramDecl.heading : SubprogramDecl → Heading
  | forward _ heading => heading
  | definition _ heading _ _ => heading

/-- A module. `nodeCount` bounds the ids of its nodes. -/
structure Program where
  node : Node
  name : Ident
  vars : List VarDecl
  subprograms : List SubprogramDecl
  body : List Stmt
  nodeCount : Nat
deriving Repr

end Oberlet
