import Oberlet.Analysis.Stmt

/-!
# Analysis of a module

A name that cannot be bound is recorded, and the analysis goes on. A subprogram that was declared is
the same symbol as its definition.
-/

namespace Oberlet

/-- The state of an analysis: the names that can be used, and what was found. -/
structure Analysis where
  table : SymbolTable
  notes : Notes
deriving Repr

/-- An analysis that binds names. -/
abbrev Declaring (α : Type) := StateT Analysis (Except Fault) α

namespace Declaring

/-- An analysis of a body, which binds no names. -/
def body {α : Type} (checker : SymbolTable → Checker α) : Declaring α := fun analysis => do
  let (value, notes) ← checker analysis.table analysis.notes
  return (value, { analysis with notes })

def record (d : Diagnostic) : Declaring Unit := body fun _ => Checker.record d

def report (span : Span) (cause : Diagnostic.Cause) : Declaring Unit := record (.on span cause)

def annotate (node : Node) (symbols : List Symbol) : Declaring Unit :=
  body fun _ => Checker.annotateSymbols node.id symbols

/-- Binds a symbol, or records why it cannot be bound. -/
def define (symbol : Symbol) : Declaring Unit := do
  let analysis ← get
  match analysis.table.define symbol with
  | .ok table => set { analysis with table }
  | .error d => record d

def defineAll : List Symbol → Declaring Unit
  | [] => return
  | symbol :: rest => do
    define symbol
    defineAll rest

/-- Binds names in a frame of their own. -/
def inFrame (declaring : Declaring Unit) : Declaring Unit := do
  modify fun analysis => { analysis with table := analysis.table.enter }
  declaring
  let analysis ← get
  let table ← analysis.table.exit
  set { analysis with table }

end Declaring

/-- The variables that a declaration names. -/
def VarDecl.variables (decl : VarDecl) : List Variable :=
  decl.names.map fun name => ⟨name.name, some name.span, decl.type⟩

/-- The subprogram that a heading describes, without a body. -/
def Heading.subprogram (heading : Heading) : Subprogram :=
  { name := heading.name.name
    span := some heading.name.span
    params := heading.params.flatMap (·.variables)
    result := heading.result
    defined := false
    builtin := false }

def VarDecl.declare (decl : VarDecl) : Declaring Unit := do
  let symbols := decl.variables.map Symbol.var
  Declaring.defineAll symbols
  Declaring.annotate decl.node symbols

def declareVars : List VarDecl → Declaring Unit
  | [] => return
  | decl :: rest => do
    decl.declare
    declareVars rest

/-- A subprogram cannot return an array. -/
def Heading.checkResult (heading : Heading) : Declaring Unit := do
  if heading.result.isArray then
    Declaring.report heading.name.span (.arrayResult heading.name.name heading.result)

/-- A forward declaration. The result is checked unless the name is that of a subprogram
already. -/
def declareForward (node : Node) (heading : Heading) : Declaring Unit := do
  let s := heading.subprogram
  match (← get).table.lookupLocal s.name with
  | some (.proc _) => pure ()
  | _ => heading.checkResult
  Declaring.define (.proc s)
  Declaring.annotate node [.proc s]

/-- The subprogram that a definition gives a body: the declared one, if there is a declaration,
and a new one otherwise. -/
def declareDefinition (heading : Heading) : Declaring Subprogram := do
  let s := heading.subprogram
  let name := heading.name
  let analysis ← get
  match analysis.table.lookupLocal name.name with
  | some (.proc declared) =>
    if declared.defined then
      Declaring.record ⟨.alreadyDefined name.name, some name.span, declared.span⟩
      return declared
    else
      let defined ← declared.define
      set { analysis with table := analysis.table.rebind name.name (.proc defined) }
      if !declared.sameSignature s then
        Declaring.report name.span (.signatureMismatch name.name)
      return defined
  | some _ =>
    heading.checkResult
    Declaring.define (.proc s)
    return s
  | none =>
    heading.checkResult
    let s := { s with defined := true }
    Declaring.define (.proc s)
    return s

/-- A definition: its symbol in the frame of the module, then its parameters, local variables and
body in a frame of their own. -/
def declareBody (node : Node) (heading : Heading) (vars : List VarDecl) (body : List Stmt) :
    Declaring Unit := do
  let s ← declareDefinition heading
  Declaring.annotate node [.proc s]
  Declaring.inFrame do
    declareVars heading.params
    declareVars vars
    Declaring.body fun table => checkStmts table ⟨s.name, s.result, false⟩ body

def SubprogramDecl.declare : SubprogramDecl → Declaring Unit
  | .forward node heading => declareForward node heading
  | .definition node heading vars body => declareBody node heading vars body

def declareSubprograms : List SubprogramDecl → Declaring Unit
  | [] => return
  | decl :: rest => do
    decl.declare
    declareSubprograms rest

/-- The final state of a symbol: a subprogram that was defined after it was referred to is
defined. -/
def Symbol.settled (frame : Frame) : Symbol → Symbol
  | .proc s => match frame.lookup s.name with
    | some (.proc final) => if final.span == s.span then .proc final else .proc s
    | _ => .proc s
  | symbol => symbol

/-- Once the module is analysed, the annotations that refer to a subprogram say whether it was
defined. -/
def Declaring.settle : Declaring Unit :=
  modify fun analysis =>
    let annotations := analysis.notes.annotations.mapSymbols (Symbol.settled analysis.table.current)
    { analysis with notes := { analysis.notes with annotations } }

/-- The module symbol joins the built-ins in the universe. Variables and subprograms share the frame
of the module. -/
def Program.declare (program : Program) : Declaring Unit := do
  let symbol := Symbol.mod program.name.name (some program.name.span)
  Declaring.define symbol
  Declaring.annotate program.node [symbol]
  Declaring.inFrame do
    declareVars program.vars
    declareSubprograms program.subprograms
    Declaring.body fun table => checkStmts table ⟨program.name.name, .void, false⟩ program.body
    Declaring.settle

/-- Analyses a module with the names and annotations that are there before. -/
def Program.analyzeWith (program : Program) (table : SymbolTable) (annotations : Annotations) :
    Except Fault Analysis := do
  let ((), analysis) ← program.declare ⟨table, ⟨annotations, []⟩⟩
  return analysis

def Program.analyze (program : Program) : Except Fault Analysis :=
  program.analyzeWith .initial (.ofSize program.nodeCount)

end Oberlet
