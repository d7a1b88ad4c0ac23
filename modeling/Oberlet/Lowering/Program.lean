import Oberlet.Lowering.Stmt

/-!
# Code for a module

All subprograms are declared before the first body is generated, so their order in the text does not
matter to calls.
-/

namespace Oberlet

open Llvm Lowering

namespace Lowering

/-- The names that a function of a module cannot have. -/
def reservedNames : List String := ["main", "printf", "scanf", "exit", "strcmp"]

/-- The name of a subprogram in the target module. -/
def functionName (moduleName name : String) : String :=
  if name ∈ reservedNames then moduleName ++ "." ++ name else name

/-- Variables of the module become globals. -/
def declareGlobals (annotations : Annotations) (moduleName : String) (scope : Scope)
    (decl : VarDecl) : Lower Scope := do
  let vars ← annotations.symbolsOf Symbol.var? decl.node.id
  vars.foldlM (fun scope v => do
    let content ← v.type.target
    let init ← v.type.zeroValue
    let name := moduleName ++ "." ++ v.name
    modify fun s => { s with globals := s.globals ++ [Global.var name init] }
    return (v.name, .storage (.global name content) content) :: scope) scope

/-- Adds the function of a subprogram to the scope of the module. A forward declaration and the
definition share one. -/
def declareFunction (annotations : Annotations) (moduleName : String) (scope : Scope)
    (decl : SubprogramDecl) : Lower Scope := do
  let sp ← annotations.symbolOf Symbol.proc? decl.node.id
  if (List.lookup sp.name scope).isSome then return scope
  let params ← sp.params.mapM fun p => do
    let ty ← p.type.target
    return (⟨p.name, ty⟩ : Param)
  let result ← sp.result.target
  let index ← Lower.addFunction ⟨functionName moduleName sp.name, result, params, false, []⟩
  return (sp.name, .function index) :: scope

/-- Copies a parameter to a stack slot, so that it can be assigned to. -/
def lowerParam (function : Nat) (scope : Scope) (index : Nat) (v : Variable) : Lower Scope := do
  let some f := (← get).functions[function]? | throw (.noFunction v.name)
  let some param := f.params[index]? | throw .missingParameter
  let slot ← Lower.emit (.alloca param.ty)
  Lower.store (.param index param.ty) slot
  return (v.name, .storage slot param.ty) :: scope

/-- Gives the parameters of a function the names of the definition, which need not be those of
the forward declaration. -/
def renameParams (function : Nat) (names : List Variable) : Lower Unit := do
  let s ← get
  let count := (s.functions[function]?.map (·.params.length)).getD 0
  if count < names.length then throw .missingParameter
  let rename (params : List Param) : List Param :=
    params.zipIdx.map fun (param, i) => match names[i]? with
      | some v => { param with name := v.name }
      | none => param
  set { s with functions := s.functions.modify function fun f =>
    { f with params := rename f.params } }

/-- Gives local variables slots with their initial values. -/
def lowerLocals (annotations : Annotations) (scope : Scope) (decl : VarDecl) : Lower Scope := do
  let vars ← annotations.symbolsOf Symbol.var? decl.node.id
  vars.foldlM (fun scope v => do
    let content ← v.type.target
    let slot ← Lower.entryAlloca content
    Lower.store (← v.type.zeroValue) slot
    return (v.name, .storage slot content) :: scope) scope

/-- Generates the body of a subprogram. A body that runs off its end returns the initial value of
the result type. -/
def lowerDefinition (annotations : Annotations) (globals : Scope) (node : Node)
    (heading : Heading) (vars : List VarDecl) (body : List Stmt) : Lower Unit := do
  let sp ← annotations.symbolOf Symbol.proc? node.id
  let env : Env := ⟨annotations, [globals], [], false⟩
  let .function index ← env.lookup sp.name | throw (.noFunction sp.name)
  let groups ← heading.params.mapM fun group =>
    annotations.symbolsOf Symbol.var? group.node.id
  let params := groups.flatten
  renameParams index params
  Lower.beginFunction index
  let scope ← params.zipIdx.foldlM (fun scope (v, i) => lowerParam index scope i v) []
  let scope ← vars.foldlM (lowerLocals annotations) scope
  lowerStmts { env with scopes := [scope, globals] } body
  if !(← Lower.terminated) then
    if sp.result == .void then Lower.terminate (.ret none)
    else Lower.terminate (.ret (some (← sp.result.zeroValue)))
  Lower.endFunction

/-- The body of the module becomes the entry point `main`. -/
def lowerMain (annotations : Annotations) (globals : Scope) (body : List Stmt) : Lower Unit := do
  let index ← Lower.addFunction ⟨"main", .i32, [], false, []⟩
  Lower.beginFunction index
  lowerStmts ⟨annotations, [globals], [], true⟩ body
  if !(← Lower.terminated) then Lower.terminate (.ret (some (.int 0)))
  Lower.endFunction

/-- Generates all that belongs to a module. -/
def lowerProgram (annotations : Annotations) (p : Program) : Lower Unit := do
  let scope ← p.vars.foldlM (declareGlobals annotations p.name.name) []
  let globals ← p.subprograms.foldlM (declareFunction annotations p.name.name) scope
  p.subprograms.forM fun
    | .forward _ _ => pure ()
    | .definition node heading vars body =>
      lowerDefinition annotations globals node heading vars body
  lowerMain annotations globals p.body

end Lowering

/-- The target module of an analysed module. -/
def Program.lower (p : Program) (annotations : Annotations) : Except Fault Module := do
  let ((), s) ← (lowerProgram annotations p).run .initial
  return ⟨p.name.name, s.globals, s.functions⟩

end Oberlet
