import Oberlet.Proofs.Decimal.Range
import Oberlet.Tree.Parser

/-!
# The grammar of modules

A phrase is a list of tokens, and every production is a relation between phrases and trees. What the
grammar says about the node of a tree is a parameter. Besides, the name behind an END is the one at
the opening, literals and sizes of arrays are in range, and a subprogram without a body is not
followed by VAR or BEGIN.
-/

namespace Oberlet

/-! ## Parts of productions -/

section

variable {α : Type}

/-- `{X}`: phrases in a row. -/
inductive Repeated (P : List Token → α → Prop) : List Token → List α → Prop
  | nil : Repeated P [] []
  | cons {ts us : List Token} {x : α} {xs : List α} : P ts x → Repeated P us xs →
      Repeated P (ts ++ us) (x :: xs)

theorem Repeated.one {P : List Token → α → Prop} {ts : List Token} {x : α} (h : P ts x) :
    Repeated P ts [x] := by
  simpa using Repeated.cons h .nil

/-- `[X]`: a phrase that may be missing. -/
inductive Optional (P : List Token → α → Prop) : List Token → Option α → Prop
  | none : Optional P [] none
  | some {ts : List Token} {x : α} : P ts x → Optional P ts (some x)

/-- A token and a phrase behind it. -/
inductive After (kind : Token.Kind) (P : List Token → α → Prop) : List Token → α → Prop
  | mk {t : Token} {ts : List Token} {x : α} : t.kind = kind → P ts x → After kind P (t :: ts) x

/-- A phrase and a token behind it. -/
inductive Before (kind : Token.Kind) (P : List Token → α → Prop) : List Token → α → Prop
  | mk {t : Token} {ts : List Token} {x : α} : P ts x → t.kind = kind → Before kind P (ts ++ [t]) x

/-- `[X {separator X}]`: phrases that are separated by a token. -/
inductive Listed (separator : Token.Kind) (P : List Token → α → Prop) : List Token → List α → Prop
  | nil : Listed separator P [] []
  | cons {ts us : List Token} {x : α} {xs : List α} : P ts x → Repeated (After separator P) us xs →
      Listed separator P (ts ++ us) (x :: xs)

/-- A phrase between two tokens. -/
inductive Enclosed (left right : Token.Kind) (P : List Token → α → Prop) : List Token → α → Prop
  | mk {opening closing : Token} {ts : List Token} {x : α} : opening.kind = left → P ts x →
      closing.kind = right → Enclosed left right P (opening :: (ts ++ [closing])) x

end

/-- An operator and the operand behind it. -/
inductive ChainLink (Sign : Token.Kind → BinOp → Prop) (P : List Token → Expr → Prop) :
    List Token → BinOp × Expr → Prop
  | mk {t : Token} {ts : List Token} {op : BinOp} {e : Expr} : Sign t.kind op → P ts e →
      ChainLink Sign P (t :: ts) (op, e)

/-- The kind of the first token of a phrase, or of the token behind it if it is empty. -/
def firstKind (ts : List Token) (next : Token.Kind) : Token.Kind :=
  match ts with
  | [] => next
  | t :: _ => t.kind

@[simp] theorem firstKind_cons (t : Token) (ts : List Token) (next : Token.Kind) :
    firstKind (t :: ts) next = t.kind := rfl

theorem firstKind_append (ts us : List Token) (next : Token.Kind) :
    firstKind (ts ++ us) next = firstKind ts (firstKind us next) := by
  cases ts <;> rfl

theorem firstKind_of_head? {ts : List Token} {t next : Token}
    (h : (ts ++ [next]).head? = some t) : firstKind ts next.kind = t.kind := by
  cases ts with
  | nil => rw [Option.some.inj h]; rfl
  | cons s ts => rw [← Option.some.inj h]; rfl

/-- The name that a token is. -/
def Token.ident (t : Token) : Ident := ⟨t.value, t.span⟩

/-! ## Expressions -/

inductive RelSign : Token.Kind → RelOp → Prop
  | eq : RelSign .eq .eq
  | neq : RelSign .neq .neq
  | lt : RelSign .lt .lt
  | ltEq : RelSign .ltEq .ltEq
  | gt : RelSign .gt .gt
  | gtEq : RelSign .gtEq .gtEq

inductive SumSign : Token.Kind → BinOp → Prop
  | plus : SumSign .plus .add
  | minus : SumSign .minus .sub
  | or : SumSign .orKw .or

inductive ProductSign : Token.Kind → BinOp → Prop
  | star : ProductSign .star .mul
  | slash : ProductSign .slash .div
  | mod : ProductSign .modKw .mod
  | and : ProductSign .andKw .and
  | amp : ProductSign .amp .and

/-- Literals. An INTEGER has 32 bits with a sign, and a REAL must not round to infinity. -/
inductive IsLiteral (t : Token) : Literal → Prop
  | integer : t.kind = .intLit → Decimal.ofDigits t.value.toList < 2 ^ 31 →
      IsLiteral t (.integer (Decimal.ofDigits t.value.toList))
  | real : t.kind = .realLit → Decimal.realValue t.value.toList < Binary64.overflow →
      IsLiteral t (.real ((Binary64.ofLiteral? t.value.toList).getD .zero))
  | string : t.kind = .stringLit → IsLiteral t (.string t.value)
  | yes : t.kind = .trueKw → IsLiteral t (.boolean true)
  | no : t.kind = .falseKw → IsLiteral t (.boolean false)

section

variable (R : List Token → Node → Prop)

mutual

/-- `sum [relop sum]` -/
inductive IsExpr : List Token → Expr → Prop
  | single {ts : List Token} {e : Expr} : IsSum ts e → IsExpr ts e
  | comparison {t : Token} {ts us : List Token} {n : Node} {left right : Expr} {op : RelOp} :
      IsSum ts left → RelSign t.kind op → IsSum us right → R (ts ++ t :: us) n →
      IsExpr (ts ++ t :: us) (.comparison n left op right)

/-- `['-'] product {('+' | '-' | 'OR') product}` -/
inductive IsSum : List Token → Expr → Prop
  | single {ts : List Token} {e : Expr} : IsProduct ts e → IsSum ts e
  | chain {ts us : List Token} {n : Node} {first : Expr} {rest : List (BinOp × Expr)} :
      IsProduct ts first → Repeated (ChainLink SumSign IsProduct) us rest → rest ≠ [] →
      R (ts ++ us) n → IsSum (ts ++ us) (.sum n false first rest)
  | negated {t : Token} {ts us : List Token} {n : Node} {first : Expr}
      {rest : List (BinOp × Expr)} : t.kind = .minus → IsProduct ts first →
      Repeated (ChainLink SumSign IsProduct) us rest → R (t :: (ts ++ us)) n →
      IsSum (t :: (ts ++ us)) (.sum n true first rest)

/-- `factor {('*' | '/' | 'MOD' | 'AND' | '&') factor}` -/
inductive IsProduct : List Token → Expr → Prop
  | single {ts : List Token} {e : Expr} : IsFactor ts e → IsProduct ts e
  | chain {ts us : List Token} {n : Node} {first : Expr} {rest : List (BinOp × Expr)} :
      IsFactor ts first → Repeated (ChainLink ProductSign IsFactor) us rest → rest ≠ [] →
      R (ts ++ us) n → IsProduct (ts ++ us) (.product n first rest)

/-- `literal | designator | call | '(' expr ')' | '~' factor` -/
inductive IsFactor : List Token → Expr → Prop
  | literal {t : Token} {n : Node} {value : Literal} : IsLiteral t value → R [t] n →
      IsFactor [t] (.literal n value)
  | designator {ts : List Token} {d : Designator Expr} : IsDesignator ts d →
      IsFactor ts (.designator d)
  | call {ts : List Token} {c : Call Expr} : IsCall ts c → IsFactor ts (.call c)
  | paren {ts : List Token} {n : Node} {inner : Expr} : Enclosed .lparen .rparen IsExpr ts inner →
      R ts n → IsFactor ts (.paren n inner)
  | not {t : Token} {ts : List Token} {n : Node} {operand : Expr} : t.kind = .tilde →
      IsFactor ts operand → R (t :: ts) n → IsFactor (t :: ts) (.not n operand)

/-- `ident '(' [expr {',' expr}] ')'` -/
inductive IsCall : List Token → Call Expr → Prop
  | mk {t : Token} {ts : List Token} {n : Node} {args : List Expr} : t.kind = .ident →
      Enclosed .lparen .rparen (Listed .comma IsExpr) ts args → R (t :: ts) n →
      IsCall (t :: ts) ⟨n, t.ident, args⟩

/-- `ident {'[' expr ']'}` -/
inductive IsDesignator : List Token → Designator Expr → Prop
  | mk {t : Token} {ts : List Token} {n : Node} {selectors : List Expr} : t.kind = .ident →
      Repeated (Enclosed .lbracket .rbracket IsExpr) ts selectors → R (t :: ts) n →
      IsDesignator (t :: ts) ⟨n, t.ident, selectors⟩

end

/-! ## Statements -/

mutual

/-- `[stmt] {';' [stmt]}` -/
inductive IsStmts : List Token → List Stmt → Prop
  | last {ts : List Token} {first : Option Stmt} : Optional IsStmt ts first →
      IsStmts ts first.toList
  | cons {t : Token} {ts us : List Token} {first : Option Stmt} {rest : List Stmt} :
      Optional IsStmt ts first → t.kind = .semi → IsStmts us rest →
      IsStmts (ts ++ t :: us) (first.toList ++ rest)

/-- `designator ':=' expr | call | ident | if | while | 'EXIT' | 'RETURN' [expr]` -/
inductive IsStmt : List Token → Stmt → Prop
  | assign {t : Token} {ts us : List Token} {n : Node} {target : Designator Expr} {value : Expr} :
      IsDesignator R ts target → t.kind = .assign → IsExpr R us value → R (ts ++ t :: us) n →
      IsStmt (ts ++ t :: us) (.assign n target value)
  | call {ts : List Token} {n : Node} {c : Call Expr} : IsCall R ts c → R ts n →
      IsStmt ts (.call n c)
  | name {t : Token} {n m : Node} : t.kind = .ident → R [t] n → R [t] m →
      IsStmt [t] (.call n ⟨m, t.ident, []⟩)
  | ite {t : Token} {ts us vs : List Token} {n : Node} {first : Branch Stmt}
      {rest : List (Branch Stmt)} {otherwise : Option (List Stmt)} : IsBranch .ifKw ts first →
      Repeated (IsBranch .elsifKw) us rest → Optional (After .elseKw IsStmts) vs otherwise →
      t.kind = .endKw → R (ts ++ (us ++ (vs ++ [t]))) n →
      IsStmt (ts ++ (us ++ (vs ++ [t]))) (.ite n (first :: rest) otherwise)
  | loop {t t₁ t₂ : Token} {ts us : List Token} {n : Node} {cond : Expr} {body : List Stmt} :
      t.kind = .whileKw → IsExpr R ts cond → t₁.kind = .doKw → IsStmts us body →
      t₂.kind = .endKw → R (t :: (ts ++ t₁ :: (us ++ [t₂]))) n →
      IsStmt (t :: (ts ++ t₁ :: (us ++ [t₂]))) (.loop n cond body)
  | exit {t : Token} {n : Node} : t.kind = .exitKw → R [t] n → IsStmt [t] (.exit n)
  | ret {t : Token} {ts : List Token} {n : Node} {value : Option Expr} : t.kind = .returnKw →
      Optional (IsExpr R) ts value → R (t :: ts) n → IsStmt (t :: ts) (.ret n value)

/-- A branch of an IF statement: `expr 'THEN' stmts` behind an IF or an ELSIF. -/
inductive IsBranch : Token.Kind → List Token → Branch Stmt → Prop
  | mk {kind : Token.Kind} {t t₁ : Token} {ts us : List Token} {n : Node} {cond : Expr}
      {body : List Stmt} : t.kind = kind → IsExpr R ts cond → t₁.kind = .thenKw →
      IsStmts us body → R (t :: (ts ++ t₁ :: us)) n →
      IsBranch kind (t :: (ts ++ t₁ :: us)) ⟨n, cond, body⟩

end

/-! ## Declarations -/

/-- `'INTEGER' | 'REAL' | 'STRING' | 'BOOLEAN' | 'ARRAY' int 'OF' type` -/
inductive IsType : List Token → DataType → Prop
  | integer {t : Token} : t.kind = .integerKw → IsType [t] .integer
  | real {t : Token} : t.kind = .realKw → IsType [t] .real
  | string {t : Token} : t.kind = .stringKw → IsType [t] .string
  | boolean {t : Token} : t.kind = .booleanKw → IsType [t] .boolean
  | array {t size t₁ : Token} {ts : List Token} {elem : DataType} : t.kind = .arrayKw →
      size.kind = .intLit → 1 ≤ Decimal.ofDigits size.value.toList →
      Decimal.ofDigits size.value.toList < 2 ^ 63 → t₁.kind = .ofKw → IsType ts elem →
      IsType (t :: size :: t₁ :: ts) (.array (Decimal.ofDigits size.value.toList) elem)

/-- A name. -/
inductive IsIdent : List Token → Ident → Prop
  | mk {t : Token} : t.kind = .ident → IsIdent [t] t.ident

/-- `ident {',' ident} ':' type` -/
inductive IsVarDecl : List Token → VarDecl → Prop
  | mk {t : Token} {ts us vs : List Token} {n : Node} {first : Ident} {rest : List Ident}
      {type : DataType} : IsIdent ts first → Repeated (After .comma IsIdent) us rest →
      t.kind = .colon → IsType vs type → R (ts ++ (us ++ t :: vs)) n →
      IsVarDecl (ts ++ (us ++ t :: vs)) ⟨n, first :: rest, type⟩

/-- `'VAR' {varDecl ';'}` -/
def IsVarBlock : List Token → List VarDecl → Prop :=
  After .varKw (Repeated (Before .semi (IsVarDecl R)))

/-- `'PROCEDURE' ident ['(' [varDecl {';' varDecl}] ')'] [':' type]` -/
inductive IsHeading : List Token → Heading → Prop
  | mk {t t₁ : Token} {ts us : List Token} {n : Node} {params : Option (List VarDecl)}
      {result : Option DataType} : t.kind = .procedureKw → t₁.kind = .ident →
      Optional (Enclosed .lparen .rparen (Listed .semi (IsVarDecl R))) ts params →
      Optional (After .colon IsType) us result → R (t :: t₁ :: (ts ++ us)) n →
      IsHeading (t :: t₁ :: (ts ++ us)) ⟨n, t₁.ident, params.getD [], result.getD .void⟩

/-- `heading ';' [[varBlock] 'BEGIN' stmts 'END' ident ';']`, in front of a token of a kind. -/
inductive IsSubprogram (next : Token.Kind) : List Token → SubprogramDecl → Prop
  | forward {t : Token} {ts : List Token} {n : Node} {heading : Heading} : IsHeading R ts heading →
      t.kind = .semi → next ≠ .varKw → next ≠ .beginKw → R (ts ++ [t]) n →
      IsSubprogram next (ts ++ [t]) (.forward n heading)
  | definition {t t₁ t₂ closing t₃ : Token} {ts us vs : List Token} {n : Node} {heading : Heading}
      {vars : Option (List VarDecl)} {body : List Stmt} : IsHeading R ts heading →
      t.kind = .semi → Optional (IsVarBlock R) us vars → t₁.kind = .beginKw → IsStmts R vs body →
      t₂.kind = .endKw → closing.kind = .ident → closing.value = heading.name.name →
      t₃.kind = .semi → R (ts ++ t :: (us ++ t₁ :: (vs ++ [t₂, closing, t₃]))) n →
      IsSubprogram next (ts ++ t :: (us ++ t₁ :: (vs ++ [t₂, closing, t₃])))
        (.definition n heading (vars.getD []) body)

/-- `{subprogram}`, in front of a token of a kind. -/
inductive IsSubprograms (next : Token.Kind) : List Token → List SubprogramDecl → Prop
  | nil : IsSubprograms next [] []
  | cons {ts us : List Token} {first : SubprogramDecl} {rest : List SubprogramDecl} :
      IsSubprogram R (firstKind us next) ts first → IsSubprograms next us rest →
      IsSubprograms next (ts ++ us) (first :: rest)

/-- `'MODULE' ident ';' [varBlock] {subprogram} ['BEGIN' stmts] 'END' ident '.'` -/
inductive IsProgram : List Token → Program → Prop
  | mk {t name t₁ t₂ closing t₃ : Token} {ts us vs : List Token} {n : Node}
      {vars : Option (List VarDecl)} {subprograms : List SubprogramDecl}
      {body : Option (List Stmt)} {count : Nat} : t.kind = .moduleKw → name.kind = .ident →
      t₁.kind = .semi → Optional (IsVarBlock R) ts vars →
      IsSubprograms R (firstKind vs .endKw) us subprograms →
      Optional (After .beginKw (IsStmts R)) vs body → t₂.kind = .endKw → closing.kind = .ident →
      closing.value = name.value → t₃.kind = .dot →
      R (t :: name :: t₁ :: (ts ++ (us ++ (vs ++ [t₂, closing, t₃])))) n →
      IsProgram (t :: name :: t₁ :: (ts ++ (us ++ (vs ++ [t₂, closing, t₃]))))
        ⟨n, name.ident, vars.getD [], subprograms, body.getD [], count⟩

end

/-! ## First tokens -/

theorem IsLiteral.kind_ne_eof {t : Token} {value : Literal} (h : IsLiteral t value) :
    t.kind ≠ .eof := by
  cases h <;> simp_all

theorem Repeated.operand_ne_nil {Sign : Token.Kind → BinOp → Prop} {P : List Token → Expr → Prop}
    {ts : List Token} {rest : List (BinOp × Expr)} (h : Repeated (ChainLink Sign P) ts rest)
    (hrest : rest ≠ []) : ts ≠ [] := by
  cases h with
  | nil => exact absurd rfl hrest
  | cons hfirst _ =>
    cases hfirst
    simp

section

variable {R : List Token → Node → Prop} {ts : List Token}

theorem IsCall.ne_nil {c : Call Expr} (h : IsCall R ts c) : ts ≠ [] := by
  cases h
  simp

theorem IsSubprogram.length_pos {next : Token.Kind} {s : SubprogramDecl}
    (h : IsSubprogram R next ts s) : 0 < ts.length := by
  cases h <;> simp

theorem IsBranch.length_pos {kind : Token.Kind} {b : Branch Stmt} (h : IsBranch R kind ts b) :
    0 < ts.length := by
  cases h
  simp

end

end Oberlet
