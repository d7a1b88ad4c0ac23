import Oberlet.Analysis.Program

/-!
# The typing rules of the language

The rules say which modules are well formed, without saying how to find out. A scope hides what is
around it: a body sees its parameters and local variables, then the variables of the module and the
subprograms declared up to the place where the body stands, then the name of the module and the
built-ins.
-/

namespace Oberlet

/-! ## Names -/

/-- What the names of a scope stand for. -/
abbrev Names := String → Option Symbol

namespace Names

def empty : Names := fun _ => none

def bind (names : Names) (symbol : Symbol) : Names :=
  fun name => if name = symbol.name then some symbol else names name

/-- Names of an inner scope hide those of the outer one. -/
def within (inner outer : Names) : Names := fun name => inner name <|> outer name

/-- The names of a list of symbols, the later ones hiding the earlier. -/
def ofSymbols (symbols : List Symbol) : Names := symbols.foldl bind empty

end Names

/-- The variables that declarations introduce, in order. -/
def variablesOf (decls : List VarDecl) : List Variable := decls.flatMap (·.variables)

def Names.ofVars (decls : List VarDecl) : Names := ofSymbols ((variablesOf decls).map .var)

/-! ## Operators and types -/

inductive DataType.Numeric : DataType → Prop
  | integer : Numeric .integer
  | real : Numeric .real

/-- The type that is left of a type behind a number of index selectors. -/
inductive DataType.Element : DataType → Nat → DataType → Prop
  | whole {t : DataType} : Element t 0 t
  | index {size : Int} {elem t : DataType} {levels : Nat} :
      Element elem levels t → Element (.array size elem) (levels + 1) t

/-- A chain operator can join operands of a type. -/
inductive BinOp.Joins : BinOp → DataType → Prop
  | or : Joins .or .boolean
  | and : Joins .and .boolean
  | add {t : DataType} : t.Numeric → Joins .add t
  | sub {t : DataType} : t.Numeric → Joins .sub t
  | mul {t : DataType} : t.Numeric → Joins .mul t
  | div {t : DataType} : t.Numeric → Joins .div t
  | mod {t : DataType} : t.Numeric → Joins .mod t

/-- A comparison operator can compare values of a type. -/
inductive RelOp.Compares : RelOp → DataType → Prop
  | eq {t : DataType} : Compares .eq t
  | neq {t : DataType} : Compares .neq t
  | lt {t : DataType} : t.Numeric → Compares .lt t
  | ltEq {t : DataType} : t.Numeric → Compares .ltEq t
  | gt {t : DataType} : t.Numeric → Compares .gt t
  | gtEq {t : DataType} : t.Numeric → Compares .gtEq t

/-! ## Expressions -/

/-- An expression has a type, its names being what they are. -/
inductive HasType (names : Names) : Expr → DataType → Prop
  | literal {node : Node} {value : Literal} : HasType names (.literal node value) value.type
  | paren {node : Node} {inner : Expr} {t : DataType} :
      HasType names inner t → HasType names (.paren node inner) t
  | not {node : Node} {operand : Expr} :
      HasType names operand .boolean → HasType names (.not node operand) .boolean
  | designator {node : Node} {name : Ident} {selectors : List Expr} {v : Variable} {t : DataType} :
      names name.name = some (.var v) →
      (∀ selector ∈ selectors, HasType names selector .integer) →
      v.type.Element selectors.length t →
      HasType names (.designator ⟨node, name, selectors⟩) t
  | call {node : Node} {callee : Ident} {args : List Expr} {s : Subprogram} :
      names callee.name = some (.proc s) →
      args.length = s.params.length →
      (∀ pair ∈ args.zip s.params, HasType names pair.1 pair.2.type) →
      s.result ≠ .void →
      HasType names (.call ⟨node, callee, args⟩) s.result
  | comparison {node : Node} {left right : Expr} {op : RelOp} {t : DataType} :
      HasType names left t → HasType names right t → op.Compares t →
      HasType names (.comparison node left op right) .boolean
  | sum {node : Node} {negate : Bool} {first : Expr} {rest : List (BinOp × Expr)} {t : DataType} :
      HasType names first t →
      (negate = true → t.Numeric) →
      (∀ pair ∈ rest, pair.1.Joins t) →
      (∀ pair ∈ rest, HasType names pair.2 t) →
      HasType names (.sum node negate first rest) t
  | product {node : Node} {first : Expr} {rest : List (BinOp × Expr)} {t : DataType} :
      HasType names first t →
      (∀ pair ∈ rest, pair.1.Joins t) →
      (∀ pair ∈ rest, HasType names pair.2 t) →
      HasType names (.product node first rest) t

/-- A call has a result of a type. That of a statement may be `void`. -/
inductive Call.HasResult (names : Names) : Call Expr → DataType → Prop
  | intro {node : Node} {callee : Ident} {args : List Expr} {s : Subprogram} :
      names callee.name = some (.proc s) →
      args.length = s.params.length →
      (∀ pair ∈ args.zip s.params, HasType names pair.1 pair.2.type) →
      HasResult names ⟨node, callee, args⟩ s.result

theorem DataType.Element.unique {t u u' : DataType} {levels : Nat} (h : t.Element levels u)
    (h' : t.Element levels u') : u = u' := by
  induction h with
  | whole =>
    cases h'
    rfl
  | index _ ih =>
    cases h' with
    | index h' => exact ih h'

/-- An expression has at most one type. -/
theorem HasType.unique {names : Names} {e : Expr} {t t' : DataType} (h : HasType names e t)
    (h' : HasType names e t') : t = t' := by
  induction h generalizing t' with
  | literal =>
    cases h'
    rfl
  | paren _ ih =>
    cases h' with
    | paren h' => exact ih h'
  | not =>
    cases h'
    rfl
  | designator hname _ helem =>
    cases h' with
    | designator hname' _ helem' =>
      rw [hname] at hname'
      cases hname'
      exact helem.unique helem'
  | call hname =>
    cases h' with
    | call hname' =>
      rw [hname] at hname'
      cases hname'
      rfl
  | comparison =>
    cases h'
    rfl
  | sum _ _ _ _ ih =>
    cases h' with
    | sum h' => exact ih h'
  | product _ _ _ ih =>
    cases h' with
    | product h' => exact ih h'

theorem hasType_call_iff {names : Names} {c : Call Expr} {t : DataType} :
    HasType names (.call c) t ↔ c.HasResult names t ∧ t ≠ .void := by
  constructor
  · rintro (_ | _ | _ | _ | ⟨hname, hlength, hargs, hvoid⟩)
    exact ⟨.intro hname hlength hargs, hvoid⟩
  · rintro ⟨⟨hname, hlength, hargs⟩, hvoid⟩
    exact .call hname hlength hargs hvoid

/-! ## Statements -/

/-- A statement can stand in a body with a result of a type, inside of a loop or not. -/
inductive Stmt.WellTyped (names : Names) (result : DataType) : Bool → Stmt → Prop
  | assign {inLoop : Bool} {node : Node} {target : Designator Expr} {value : Expr} {t : DataType} :
      HasType names (.designator target) t → HasType names value t →
      WellTyped names result inLoop (.assign node target value)
  | call {inLoop : Bool} {node : Node} {c : Call Expr} {t : DataType} :
      c.HasResult names t → WellTyped names result inLoop (.call node c)
  | ite {inLoop : Bool} {node : Node} {branches : List (Branch Stmt)}
      {otherwise : Option (List Stmt)} :
      (∀ branch ∈ branches, HasType names branch.cond .boolean) →
      (∀ branch ∈ branches, ∀ stmt ∈ branch.body, WellTyped names result inLoop stmt) →
      (∀ body, otherwise = some body → ∀ stmt ∈ body, WellTyped names result inLoop stmt) →
      WellTyped names result inLoop (.ite node branches otherwise)
  | loop {inLoop : Bool} {node : Node} {cond : Expr} {body : List Stmt} :
      HasType names cond .boolean →
      (∀ stmt ∈ body, WellTyped names result true stmt) →
      WellTyped names result inLoop (.loop node cond body)
  | exit {node : Node} : WellTyped names result true (.exit node)
  | ret {inLoop : Bool} {node : Node} :
      result = .void → WellTyped names result inLoop (.ret node none)
  | retValue {inLoop : Bool} {node : Node} {value : Expr} :
      HasType names value result → WellTyped names result inLoop (.ret node (some value))

namespace Stmt

variable {names : Names} {result : DataType} {inLoop : Bool} {node : Node}

theorem wellTyped_assign_iff {target : Designator Expr} {value : Expr} :
    (assign node target value).WellTyped names result inLoop ↔
      ∃ t, HasType names (.designator target) t ∧ HasType names value t :=
  ⟨fun | .assign ht hv => ⟨_, ht, hv⟩, fun ⟨_, ht, hv⟩ => .assign ht hv⟩

theorem wellTyped_call_iff {c : Call Expr} :
    (call node c).WellTyped names result inLoop ↔ ∃ t, c.HasResult names t :=
  ⟨fun | .call hc => ⟨_, hc⟩, fun ⟨_, hc⟩ => .call hc⟩

theorem wellTyped_ite_iff {branches : List (Branch Stmt)} {otherwise : Option (List Stmt)} :
    (ite node branches otherwise).WellTyped names result inLoop ↔
      (∀ branch ∈ branches, HasType names branch.cond .boolean) ∧
      (∀ branch ∈ branches, ∀ stmt ∈ branch.body, stmt.WellTyped names result inLoop) ∧
      ∀ body, otherwise = some body → ∀ stmt ∈ body, stmt.WellTyped names result inLoop :=
  ⟨fun | .ite hconds hbodies hbody => ⟨hconds, hbodies, hbody⟩,
    fun ⟨hconds, hbodies, hbody⟩ => .ite hconds hbodies hbody⟩

theorem wellTyped_loop_iff {cond : Expr} {body : List Stmt} :
    (loop node cond body).WellTyped names result inLoop ↔
      HasType names cond .boolean ∧ ∀ stmt ∈ body, stmt.WellTyped names result true :=
  ⟨fun | .loop hcond hbody => ⟨hcond, hbody⟩, fun ⟨hcond, hbody⟩ => .loop hcond hbody⟩

theorem wellTyped_exit_iff : (exit node).WellTyped names result inLoop ↔ inLoop = true :=
  ⟨fun | .exit => rfl, fun h => h ▸ .exit⟩

theorem wellTyped_ret_none_iff :
    (ret node none).WellTyped names result inLoop ↔ result = .void :=
  ⟨fun | .ret h => h, .ret⟩

theorem wellTyped_ret_some_iff {value : Expr} :
    (ret node (some value)).WellTyped names result inLoop ↔ HasType names value result :=
  ⟨fun | .retValue h => h, .retValue⟩

end Stmt

/-! ## Modules -/

/-- The subprogram that a definition gives a body: the declared one, if there is a declaration. -/
def Heading.completed (heading : Heading) (frame : Names) : Subprogram :=
  match frame heading.name.name with
  | some (.proc s) => { s with defined := true }
  | _ => { heading.subprogram with defined := true }

def SubprogramDecl.subprogram (frame : Names) : SubprogramDecl → Subprogram
  | .forward _ heading => heading.subprogram
  | .definition _ heading _ _ => heading.completed frame

/-- The names of a module behind one more subprogram. -/
def Names.declare (frame : Names) (decl : SubprogramDecl) : Names :=
  frame.bind (.proc (decl.subprogram frame))

/-- A subprogram can be declared behind the names of `frame`: it is a new one, or the first
definition of one that was declared with the same types. -/
inductive SubprogramDecl.Allowed (frame : Names) : SubprogramDecl → Prop
  | forward {node : Node} {heading : Heading} :
      frame heading.name.name = none →
      (∀ size elem, heading.result ≠ .array size elem) →
      Allowed frame (.forward node heading)
  | define {node : Node} {heading : Heading} {vars : List VarDecl} {body : List Stmt} :
      frame heading.name.name = none →
      (∀ size elem, heading.result ≠ .array size elem) →
      ((variablesOf (heading.params ++ vars)).map (·.name)).Nodup →
      Allowed frame (.definition node heading vars body)
  | complete {node : Node} {heading : Heading} {vars : List VarDecl} {body : List Stmt}
      {s : Subprogram} :
      frame heading.name.name = some (.proc s) →
      s.defined = false →
      s.params.map (·.type) = (variablesOf heading.params).map (·.type) →
      s.result = heading.result →
      ((variablesOf (heading.params ++ vars)).map (·.name)).Nodup →
      Allowed frame (.definition node heading vars body)

/-- Subprograms can be declared one after the other behind the names of `frame`. -/
inductive Declarable : Names → List SubprogramDecl → Prop
  | nil {frame : Names} : Declarable frame []
  | cons {frame : Names} {decl : SubprogramDecl} {rest : List SubprogramDecl} :
      decl.Allowed frame → Declarable (frame.declare decl) rest → Declarable frame (decl :: rest)

/-- A body of a module: its statements, the names that they see, and the result. -/
structure Body where
  names : Names
  result : DataType
  stmts : List Stmt

/-- Every statement of a body can stand in it. -/
abbrev Body.WellTyped (body : Body) : Prop :=
  ∀ stmt ∈ body.stmts, stmt.WellTyped body.names body.result false

def SubprogramDecl.bodies (outer frame : Names) : SubprogramDecl → List Body
  | .forward _ _ => []
  | .definition _ heading vars body =>
    [⟨(Names.ofVars (heading.params ++ vars)).within (frame.within outer), heading.result, body⟩]

def bodiesOf (outer frame : Names) : List SubprogramDecl → List Body
  | [] => []
  | decl :: rest =>
    decl.bodies outer (frame.declare decl) ++ bodiesOf outer (frame.declare decl) rest

namespace Program

/-- The names around a module: the built-ins, and its own. -/
def outerNames (p : Program) : Names :=
  (Names.ofSymbols (Subprogram.builtins.map .proc)).bind (.mod p.name.name (some p.name.span))

def frameNames (p : Program) : Names := p.subprograms.foldl Names.declare (.ofVars p.vars)

def mainBody (p : Program) : Body := ⟨p.frameNames.within p.outerNames, .void, p.body⟩

def bodies (p : Program) : List Body :=
  bodiesOf p.outerNames (.ofVars p.vars) p.subprograms ++ [p.mainBody]

def defines (decls : List SubprogramDecl) (name : String) : Bool :=
  decls.any fun
    | .forward _ _ => false
    | .definition _ heading _ _ => heading.name.name == name

/-- What a subprogram is at the end of the module: one that was only declared at first may have been
defined since. -/
def finished (p : Program) (s : Subprogram) : Subprogram :=
  { s with defined := s.builtin || defines p.subprograms s.name }

/-- What a symbol is at the end of the module. -/
def final (p : Program) : Symbol → Symbol
  | .proc s => .proc (p.finished s)
  | symbol => symbol

/-- A module obeys the rules of the language. -/
structure WellFormed (p : Program) : Prop where
  name : ∀ s ∈ Subprogram.builtins, s.name ≠ p.name.name
  vars : ((variablesOf p.vars).map (·.name)).Nodup
  subprograms : Declarable (.ofVars p.vars) p.subprograms
  bodies : ∀ body ∈ p.bodies, body.WellTyped

end Program

end Oberlet
