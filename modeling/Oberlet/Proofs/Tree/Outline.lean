import Oberlet.Tree.Basic

/-!
# Trees without ids and spans

Two trees with the same outline are the same up to ids and spans.
-/

namespace Oberlet

def Node.blank : Node := ⟨0, ⟨0, 0, 0, 0⟩⟩

def Ident.outline (i : Ident) : Ident := ⟨i.name, Node.blank.span⟩

mutual

def Expr.outline : Expr → Expr
  | .literal _ value => .literal .blank value
  | .paren _ inner => .paren .blank inner.outline
  | .not _ operand => .not .blank operand.outline
  | .designator ⟨_, name, selectors⟩ =>
    .designator ⟨.blank, name.outline, outlineAll selectors⟩
  | .call ⟨_, callee, args⟩ => .call ⟨.blank, callee.outline, outlineAll args⟩
  | .comparison _ left op right => .comparison .blank left.outline op right.outline
  | .sum _ negate first rest => .sum .blank negate first.outline (outlineChain rest)
  | .product _ first rest => .product .blank first.outline (outlineChain rest)

def outlineAll : List Expr → List Expr
  | [] => []
  | e :: rest => e.outline :: outlineAll rest

def outlineChain : List (BinOp × Expr) → List (BinOp × Expr)
  | [] => []
  | (op, e) :: rest => (op, e.outline) :: outlineChain rest

end

theorem isEmpty_outlineChain (chain : List (BinOp × Expr)) :
    (outlineChain chain).isEmpty = chain.isEmpty := by
  cases chain <;> rfl

theorem isEmpty_outlineAll (es : List Expr) : (outlineAll es).isEmpty = es.isEmpty := by
  cases es <;> rfl

def Designator.outline (d : Designator Expr) : Designator Expr :=
  ⟨.blank, d.name.outline, outlineAll d.selectors⟩

def Call.outline (c : Call Expr) : Call Expr := ⟨.blank, c.callee.outline, outlineAll c.args⟩

theorem Expr.outline_designator (d : Designator Expr) :
    (Expr.designator d).outline = .designator d.outline := rfl

theorem Expr.outline_call (c : Call Expr) : (Expr.call c).outline = .call c.outline := rfl

mutual

def Stmt.outline : Stmt → Stmt
  | .assign _ target value => .assign .blank target.outline value.outline
  | .call _ c => .call .blank c.outline
  | .ite _ branches none => .ite .blank (outlineBranches branches) none
  | .ite _ branches (some body) => .ite .blank (outlineBranches branches) (some (outlineBody body))
  | .loop _ cond body => .loop .blank cond.outline (outlineBody body)
  | .exit _ => .exit .blank
  | .ret _ value => .ret .blank (value.map Expr.outline)

def outlineBranches : List (Branch Stmt) → List (Branch Stmt)
  | [] => []
  | ⟨_, cond, body⟩ :: rest => ⟨.blank, cond.outline, outlineBody body⟩ :: outlineBranches rest

def outlineBody : List Stmt → List Stmt
  | [] => []
  | stmt :: rest => stmt.outline :: outlineBody rest

end

def Branch.outline (b : Branch Stmt) : Branch Stmt := ⟨.blank, b.cond.outline, outlineBody b.body⟩

theorem outlineBranches_cons (b : Branch Stmt) (rest : List (Branch Stmt)) :
    outlineBranches (b :: rest) = b.outline :: outlineBranches rest := rfl

theorem outlineBody_append (front back : List Stmt) :
    outlineBody (front ++ back) = outlineBody front ++ outlineBody back := by
  induction front with
  | nil => rfl
  | cons stmt rest ih => simp [outlineBody, ih]

def VarDecl.outline (d : VarDecl) : VarDecl := ⟨.blank, d.names.map Ident.outline, d.type⟩

def Heading.outline (h : Heading) : Heading :=
  ⟨.blank, h.name.outline, h.params.map VarDecl.outline, h.result⟩

def SubprogramDecl.outline : SubprogramDecl → SubprogramDecl
  | .forward _ heading => .forward .blank heading.outline
  | .definition _ heading vars body =>
    .definition .blank heading.outline (vars.map VarDecl.outline) (outlineBody body)

def Program.outline (p : Program) : Program :=
  ⟨.blank, p.name.outline, p.vars.map VarDecl.outline, p.subprograms.map SubprogramDecl.outline,
    outlineBody p.body, 0⟩

end Oberlet
