import Oberlet.Build.Basic
import Oberlet.Build.Task
import Oberlet.Llvm.Printer

/-!
# Running a build

Nothing is generated as long as any file has an error, and nothing is assembled as long as any
output could not be written.
-/

namespace Oberlet

/-- The order in which the files of a build are worked on: for each phase, the turns that tasks
take. Without turns, one file is worked on after the other. -/
structure Schedule where
  analyzing : List Nat := []
  generating : List Nat := []
  assembling : List Nat := []
deriving DecidableEq, Repr

/-! ## Tasks -/

def AnalysisStep.before {α : Type} : AnalysisStep → Task α → Task α
  | .tell notice, rest => .tell notice rest
  | .fail message, rest => .fail message rest

namespace Build

/-- Reads a file and tells what is wrong with it. -/
def analysisTask (b : Build) (source : Path) : Task Examined :=
  .ask (.read source) fun content =>
    let examined := b.examine source content
    examined.steps.foldr AnalysisStep.before (.done examined)

def afterWrite (step : WriteStep) (rest : Task Unit) : Except FileError Unit → Task Unit
  | .ok () => rest
  | .error e => .fail (writeFailure e step) (.done ())

/-- Takes the steps of writing, up to one that fails. -/
def writeTask : List WriteStep → Task Unit
  | [] => .done ()
  | .makeDirectories path :: rest =>
    .ask (.makeDirectories path) (afterWrite (.makeDirectories path) (writeTask rest))
  | .write path content :: rest =>
    .ask (.write path content) (afterWrite (.write path content) (writeTask rest))

/-- Writes the output of a file, whose content `print` makes of the target module. -/
def generationTask (print : Llvm.Module → Bytes) (b : Build) (examined : Examined) : Task Unit :=
  let generated : Option (Except Fault Llvm.Module) := examined.compilation.map (·.generate)
  match generated with
  | some (.ok m) => writeTask (writeSteps (b.outputPath examined.source) (print m))
  | some (.error f) => .tell (.ofFault examined.shown f) (.done ())
  | none => .done ()

def assemblyTask (profile : Profile) (output : Path) : Task Unit :=
  .ask (.execute profile.assembler (assemblerArgs profile output (objectPath output))) fun
    | .ok () => .done ()
    | .error f => .fail s!"failed to run llc on `{output.name}`:\n{f.text}" (.done ())

/-! ## Phases -/

/-- A phase ends when all files are done, and the first failure is told at its end. -/
def endPhase (failure : Option String) : Run Unit := do
  match failure with
  | some message => Run.tell (.failure "" message)
  | none => pure ()
  Run.tell (.phaseEnds (← Job.elapsed))

/-- Works on all files side by side. -/
def phase {α : Type} (name : String) (turns : List Nat) (tasks : List (Task α)) : Run (List α) := do
  Run.tell (.phaseBegins name)
  let (values, failure) ← (Task.runAll turns tasks).run none
  endPhase failure
  return values

def analyzeUnder (turns : List Nat) (b : Build) : Run (List Examined) :=
  phase "Analyzing" turns (b.sources.map b.analysisTask)

/-- Analyses the sources. Returns whether there is nothing wrong with them. -/
def checkUnder (schedule : Schedule) (b : Build) : Run Bool := do
  let _ ← b.analyzeUnder schedule.analyzing
  return !(← Run.anyErrors)

/-- Assembles the outputs, if the assembler can be found. -/
def assembleUnder (turns : List Nat) (profile : Profile) (outputs : List Path) :
    Run (Option (List Path)) := do
  match ← Job.locate profile.assembler with
  | .error reason =>
    Run.tell (.fatal s!"unable to locate llc at `{profile.assembler}`: {reason}")
  | .ok () => pure ()
  let _ ← phase "Assembling" turns (outputs.map (assemblyTask profile))
  return if ← Run.anyErrors then none else some (outputs.map objectPath)

/-- Analyses the sources, writes the outputs as `print` makes them and, if the profile says so,
assembles them. Returns the files that were produced, unless something went wrong. -/
def compileUnder (print : Llvm.Module → Bytes) (schedule : Schedule) (b : Build) :
    Run (Option (List Path)) := do
  let examined ← b.analyzeUnder schedule.analyzing
  if ← Run.anyErrors then return none
  Run.tellAll (b.conflicts [] b.sources)
  if ← Run.anyErrors then return none
  let _ ← phase "Generating" schedule.generating (examined.map (b.generationTask print))
  if ← Run.anyErrors then return none
  match b.profile.output with
  | .text => return some b.outputPaths
  | .object => assembleUnder schedule.assembling b.profile b.outputPaths

/-! ## One file after the other -/

def check (b : Build) : Run Bool := b.checkUnder {}

/-- The content of an output: the text of the target module. -/
def contentOf (m : Llvm.Module) : Bytes := Text.Utf8.encode m.text

def compile (b : Build) : Run (Option (List Path)) := b.compileUnder contentOf {}

end Build

end Oberlet
