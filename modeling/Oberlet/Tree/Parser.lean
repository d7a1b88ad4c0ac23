import Oberlet.Text.Quoted
import Oberlet.Token.Lexer
import Oberlet.Tree.Basic

/-!
# Reading syntax trees from tokens

Each function stands below the rule of the grammar that it follows. Node ids count up in the order
in which nodes are completed.

A parser stands on a token that has not been used. Using it reads the next one, so an error in the
text behind a token is met when that token is used. Every recursive function takes a bound on the
depth of its calls; `Program.parse` gives one that the number of tokens makes sufficient.
-/

namespace Oberlet

/-- Where a parser stands: on a token, with the tokens behind it, the span of the last token
used, and the node ids left. -/
structure Cursor where
  token : Token
  rest : List Token
  fault : Option Diagnostic
  last : Span
  ids : NodeIds
deriving Repr

/-- Why a parser stops: the text is no module, or the bound on the depth of calls was too low. -/
inductive ParseStop
  | rejected (d : Diagnostic)
  | overrun
deriving DecidableEq, Repr

/-- What reads a part of a tree from where it stands. -/
abbrev Parser (α : Type) := StateT Cursor (Except ParseStop) α

namespace Parser

/-! ## Tokens -/

/-- Rejects the text because of a place in it. -/
def fail {α : Type} (span : Span) (cause : Diagnostic.Cause) : Parser α :=
  throw (.rejected (.on span cause))

def overrun {α : Type} : Parser α := throw .overrun

def token : Parser Token := return (← get).token

def kind : Parser Token.Kind := return (← get).token.kind

/-- Uses the token that the parser stands on. Behind the end of the text there is nothing but the
end of the text. -/
def advance : Parser Unit := fun cursor =>
  match cursor.rest, cursor.fault with
  | next :: rest, _ => .ok ((), { cursor with token := next, rest, last := cursor.token.span })
  | [], some fault => .error (.rejected fault)
  | [], none => .ok ((), { cursor with last := cursor.token.span })

/-- A token as it is shown in a diagnostic. -/
def shown (token : Token) : String :=
  if token.kind == .stringLit then Text.Quoted.text token.value else token.value

/-- Rejects the token that the parser stands on. -/
def reject {α : Type} : Parser α := do
  let token ← token
  if token.kind == .eof then fail token.span .unexpectedEnd
  else fail token.span (.unexpectedToken (shown token))

/-- Uses a token, which must be of the expected kind. -/
def want (expected : Token.Kind) : Parser Token := do
  let token ← token
  if token.kind == expected then
    advance
    return token
  else reject

/-- A new node from the start of a span to the end of the last token used. -/
def node (start : Span) : Parser Node :=
  modifyGet fun cursor =>
    let (id, ids) := cursor.ids.fresh
    (⟨id, start.cover cursor.last⟩, { cursor with ids })

/-- The name that the parser stands on. -/
def ident : Parser Ident := do
  let token ← want .ident
  return ⟨token.value, token.span⟩

/-- The name behind an END, which must be the given one. -/
def endName (opening : Ident) : Parser Unit := do
  let closing ← ident
  if closing.name != opening.name then
    fail closing.span (.endMismatch opening.name closing.name)

/-! ## Expressions -/

/-- `relop = '=' | '#' | '<' | '<=' | '>' | '>='` -/
def relOp? : Token.Kind → Option RelOp
  | .eq => some .eq
  | .neq => some .neq
  | .lt => some .lt
  | .ltEq => some .ltEq
  | .gt => some .gt
  | .gtEq => some .gtEq
  | _ => none

def sumOp? : Token.Kind → Option BinOp
  | .plus => some .add
  | .minus => some .sub
  | .orKw => some .or
  | _ => none

def productOp? : Token.Kind → Option BinOp
  | .star => some .mul
  | .slash => some .div
  | .modKw => some .mod
  | .andKw => some .and
  | .amp => some .and
  | _ => none

/-- The greatest integer literal. -/
def maxInteger : Nat := 2147483647

def maxArraySize : Nat := 9223372036854775807

/-- The value of the token that the parser stands on, which must be a literal. -/
def literalValue : Parser Literal := do
  let token ← token
  match token.kind with
  | .intLit =>
    let value := Decimal.ofDigits token.value.toList
    if value ≤ maxInteger then return .integer value
    else fail token.span (.integerOutOfRange token.value)
  | .realLit =>
    match Binary64.ofLiteral? token.value.toList with
    | some value => return .real value
    | none => fail token.span (.invalidReal token.value)
  | .stringLit => return .string token.value
  | .trueKw => return .boolean true
  | .falseKw => return .boolean false
  | _ => reject

/-- `literal = int | real | string | 'TRUE' | 'FALSE'` -/
def literal : Parser Expr := do
  let token ← token
  let value ← literalValue
  advance
  return .literal (← node token.span) value

mutual

/-- `expr = sum [relop sum]` -/
def expr : (depth : Nat) → Parser Expr
  | 0 => overrun
  | depth + 1 => do
    let start := (← token).span
    let left ← sum depth
    match relOp? (← kind) with
    | some op =>
      advance
      let right ← sum depth
      return .comparison (← node start) left op right
    | none => return left

/-- `sum = ['-'] product {('+' | '-' | 'OR') product}`. A chain of a single operand without a sign
is that operand itself. -/
def sum : (depth : Nat) → Parser Expr
  | 0 => overrun
  | depth + 1 => do
    let start := (← token).span
    let negate := (← kind) == .minus
    if negate then advance
    let first ← product depth
    let rest ← sumRest depth
    if !negate && rest.isEmpty then return first
    else return .sum (← node start) negate first rest

def sumRest : (depth : Nat) → Parser (List (BinOp × Expr))
  | 0 => overrun
  | depth + 1 => do
    match sumOp? (← kind) with
    | some op =>
      advance
      let operand ← product depth
      return (op, operand) :: (← sumRest depth)
    | none => return []

/-- `product = factor {('*' | '/' | 'MOD' | 'AND' | '&') factor}` -/
def product : (depth : Nat) → Parser Expr
  | 0 => overrun
  | depth + 1 => do
    let start := (← token).span
    let first ← factor depth
    let rest ← productRest depth
    if rest.isEmpty then return first
    else return .product (← node start) first rest

def productRest : (depth : Nat) → Parser (List (BinOp × Expr))
  | 0 => overrun
  | depth + 1 => do
    match productOp? (← kind) with
    | some op =>
      advance
      let operand ← factor depth
      return (op, operand) :: (← productRest depth)
    | none => return []

/-- `factor = '~' factor | '(' expr ')' | ident call | designator | literal` -/
def factor : (depth : Nat) → Parser Expr
  | 0 => overrun
  | depth + 1 => do
    let start := (← token).span
    match ← kind with
    | .tilde =>
      advance
      let operand ← factor depth
      return .not (← node start) operand
    | .lparen =>
      advance
      let inner ← expr depth
      let _ ← want .rparen
      return .paren (← node start) inner
    | .ident =>
      let name ← ident
      if (← kind) == .lparen then return .call (← call depth name)
      else return .designator (← designator depth name)
    | _ => literal

/-- `call = '(' [expr {',' expr}] ')'`, behind the name. -/
def call : (depth : Nat) → Ident → Parser (Call Expr)
  | 0, _ => overrun
  | depth + 1, callee => do
    let _ ← want .lparen
    let args ← if (← kind) == .rparen then pure [] else do
      let first ← expr depth
      let rest ← argsRest depth
      pure (first :: rest)
    let _ ← want .rparen
    return ⟨← node callee.span, callee, args⟩

def argsRest : (depth : Nat) → Parser (List Expr)
  | 0 => overrun
  | depth + 1 => do
    if (← kind) == .comma then
      advance
      let arg ← expr depth
      return arg :: (← argsRest depth)
    else return []

/-- `designator = ident {'[' expr ']'}`, behind the name. -/
def designator : (depth : Nat) → Ident → Parser (Designator Expr)
  | 0, _ => overrun
  | depth + 1, name => do
    let selectors ← selectors depth
    return ⟨← node name.span, name, selectors⟩

def selectors : (depth : Nat) → Parser (List Expr)
  | 0 => overrun
  | depth + 1 => do
    if (← kind) == .lbracket then
      advance
      let index ← expr depth
      let _ ← want .rbracket
      return index :: (← selectors depth)
    else return []

end

/-! ## Statements -/

/-- The tokens before which a statement may be left out. -/
def endsStmt : Token.Kind → Bool
  | .semi => true
  | .endKw => true
  | .elseKw => true
  | .elsifKw => true
  | _ => false

/-- `namedStmt = designator ':=' expr | ident [call]`. A name alone is a call without arguments. -/
def namedStmt (depth : Nat) : Parser Stmt := do
  let start := (← token).span
  let name ← ident
  if (← kind) == .lparen then
    let call ← call depth name
    return .call (← node start) call
  else
    let target ← designator depth name
    if (← kind) == .assign then
      advance
      let value ← expr depth
      return .assign (← node start) target value
    else if target.selectors.isEmpty then
      let stmt ← node start
      return .call stmt ⟨← node start, name, []⟩
    else reject

mutual

/-- `stmts = [stmt] {';' [stmt]}` -/
def stmts : (depth : Nat) → Parser (List Stmt)
  | 0 => overrun
  | depth + 1 => do
    let kind ← kind
    let first ← if endsStmt kind || kind == .eof then pure [] else do
      let first ← stmt depth
      pure [first]
    if (← Parser.kind) == .semi then
      advance
      return first ++ (← stmts depth)
    else return first

/-- `stmt = namedStmt | branch {branch} ['ELSE' stmts] 'END' | 'WHILE' expr 'DO' stmts 'END' |
'EXIT' | 'RETURN' [expr]` -/
def stmt : (depth : Nat) → Parser Stmt
  | 0 => overrun
  | depth + 1 => do
    let start := (← token).span
    match ← kind with
    | .ifKw =>
      let first ← branch depth
      let rest ← branches depth
      let otherwise ← if (← kind) == .elseKw then do
          advance
          let body ← stmts depth
          pure (some body)
        else pure none
      let _ ← want .endKw
      return .ite (← node start) (first :: rest) otherwise
    | .whileKw =>
      advance
      let cond ← expr depth
      let _ ← want .doKw
      let body ← stmts depth
      let _ ← want .endKw
      return .loop (← node start) cond body
    | .exitKw =>
      advance
      return .exit (← node start)
    | .returnKw =>
      advance
      let value ← if endsStmt (← kind) then pure none else do
        let value ← expr depth
        pure (some value)
      return .ret (← node start) value
    | .ident => namedStmt depth
    | _ => reject

def branches : (depth : Nat) → Parser (List (Branch Stmt))
  | 0 => overrun
  | depth + 1 => do
    if (← kind) == .elsifKw then
      let first ← branch depth
      return first :: (← branches depth)
    else return []

/-- `branch = ('IF' | 'ELSIF') expr 'THEN' stmts` -/
def branch : (depth : Nat) → Parser (Branch Stmt)
  | 0 => overrun
  | depth + 1 => do
    let start := (← token).span
    advance
    let cond ← expr depth
    let _ ← want .thenKw
    let body ← stmts depth
    return ⟨← node start, cond, body⟩

end

/-! ## Declarations -/

/-- `type = 'INTEGER' | 'REAL' | 'STRING' | 'BOOLEAN' | 'ARRAY' int 'OF' type` -/
def dataType : (depth : Nat) → Parser DataType
  | 0 => overrun
  | depth + 1 => do
    match ← kind with
    | .integerKw => advance; return .integer
    | .realKw => advance; return .real
    | .stringKw => advance; return .string
    | .booleanKw => advance; return .boolean
    | .arrayKw =>
      advance
      let size ← want .intLit
      let value := Decimal.ofDigits size.value.toList
      if value == 0 || maxArraySize < value then fail size.span (.invalidArraySize size.value)
      let _ ← want .ofKw
      return .array value (← dataType depth)
    | _ => reject

def namesRest : (depth : Nat) → Parser (List Ident)
  | 0 => overrun
  | depth + 1 => do
    if (← kind) == .comma then
      advance
      let name ← ident
      return name :: (← namesRest depth)
    else return []

/-- `varDecl = ident {',' ident} ':' type` -/
def varDecl (depth : Nat) : Parser VarDecl := do
  let start := (← token).span
  let first ← ident
  let rest ← namesRest depth
  let _ ← want .colon
  let type ← dataType depth
  return ⟨← node start, first :: rest, type⟩

def varDecls : (depth : Nat) → Parser (List VarDecl)
  | 0 => overrun
  | depth + 1 => do
    if (← kind) == .ident then
      let decl ← varDecl depth
      let _ ← want .semi
      return decl :: (← varDecls depth)
    else return []

/-- `varBlock = 'VAR' {varDecl ';'}` -/
def varBlock (depth : Nat) : Parser (List VarDecl) := do
  if (← kind) == .varKw then
    advance
    varDecls depth
  else return []

def paramsRest : (depth : Nat) → Parser (List VarDecl)
  | 0 => overrun
  | depth + 1 => do
    if (← kind) == .semi then
      advance
      let group ← varDecl depth
      return group :: (← paramsRest depth)
    else return []

/-- `params = '(' [varDecl {';' varDecl}] ')'` -/
def params (depth : Nat) : Parser (List VarDecl) := do
  if (← kind) == .lparen then
    advance
    let groups ← if (← kind) == .rparen then pure [] else do
      let first ← varDecl depth
      let rest ← paramsRest depth
      pure (first :: rest)
    let _ ← want .rparen
    return groups
  else return []

/-- `heading = 'PROCEDURE' ident [params] [':' type]` -/
def heading (depth : Nat) : Parser Heading := do
  let start ← want .procedureKw
  let name ← ident
  let params ← params depth
  let result ← if (← kind) == .colon then do
      advance
      dataType depth
    else pure .void
  return ⟨← node start.span, name, params, result⟩

/-- `subprogram = heading ';' [[varBlock] 'BEGIN' stmts 'END' ident ';']`. A heading that is
followed by neither `VAR` nor `BEGIN` is a forward declaration. -/
def subprogram (depth : Nat) : Parser SubprogramDecl := do
  let start := (← token).span
  let heading ← heading depth
  let _ ← want .semi
  let kind ← kind
  if kind == .varKw || kind == .beginKw then
    let vars ← varBlock depth
    let _ ← want .beginKw
    let body ← stmts depth
    let _ ← want .endKw
    endName heading.name
    let _ ← want .semi
    return .definition (← node start) heading vars body
  else return .forward (← node start) heading

def subprograms : (depth : Nat) → Parser (List SubprogramDecl)
  | 0 => overrun
  | depth + 1 => do
    if (← kind) == .procedureKw then
      let first ← subprogram depth
      return first :: (← subprograms depth)
    else return []

/-- `module = 'MODULE' ident ';' [varBlock] {subprogram} ['BEGIN' stmts] 'END' ident '.'` -/
def program (depth : Nat) : Parser Program := do
  let start ← want .moduleKw
  let name ← ident
  let _ ← want .semi
  let vars ← varBlock depth
  let subprograms ← subprograms depth
  let body ← if (← kind) == .beginKw then do
      advance
      stmts depth
    else pure []
  let _ ← want .endKw
  endName name
  let _ ← want .dot
  if (← kind) != .eof then reject
  let node ← node start.span
  return ⟨node, name, vars, subprograms, body, (← get).ids.count⟩

end Parser

namespace TokenStream

/-- Where a parser begins. -/
def cursor : TokenStream → Except Diagnostic Cursor
  | ⟨first :: rest, fault⟩ => .ok ⟨first, rest, fault, first.span, .none⟩
  | ⟨[], some fault⟩ => .error fault
  | ⟨[], none⟩ => .error ⟨.unexpectedEnd, none, none⟩

/-- A bound on the depth of calls that suffices for a stream: between two calls of the same
function a token is used. -/
def depth (stream : TokenStream) : Nat := 16 * (stream.tokens.length + 1)

end TokenStream

namespace Program

def ofTokens (stream : TokenStream) : Except Diagnostic Program := do
  let cursor ← stream.cursor
  match (Parser.program stream.depth).run cursor with
  | .ok (program, _) => return program
  | .error (.rejected d) => throw d
  | .error .overrun => throw ⟨.unexpectedEnd, none, none⟩

/-- The tree of a text. -/
def parse (source : List Char) : Except Diagnostic Program := ofTokens (.ofSource source)

end Program

end Oberlet
