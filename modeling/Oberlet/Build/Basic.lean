import Oberlet.Compilation
import Oberlet.Console.Basic
import Oberlet.Project.Basic

/-!
# Builds

The steps of one file are taken in order, those of different files in any order, so each phase of a
build is given as one list of steps for each file.
-/

namespace Oberlet

/-- The source files to compile, each for itself, and where their outputs go. -/
structure Build where
  root : Path
  sources : List Path
  outputDir : Path
  profile : Profile
deriving DecidableEq, Repr

/-- A step of the analysis of a file: something to be told, or a failure that only shows when all
files are done. -/
inductive AnalysisStep
  | tell (notice : Notice)
  | fail (message : String)
deriving DecidableEq, Repr

/-- A step of writing an output. -/
inductive WriteStep
  | makeDirectories (path : Path)
  | write (path : Path) (content : Bytes)
deriving DecidableEq, Repr

/-- How a fault is told. One without a message is a failure of the file. -/
def Notice.ofFault (path : String) (f : Fault) : Notice :=
  match f.message? with
  | some message => .internal message
  | none => .failure path "internal inconsistency"

def Notice.ofDiagnostic (source : Option Bytes) (path : String) (d : Diagnostic) : Notice :=
  .error source path d.span d.message

namespace Compilation

def ofReadError (e : FileError) : Compilation := unreadable ⟨.unreadable e.text, none, none⟩

def ofBytes (content : Bytes) : Except Fault Compilation := ofSource (Text.Utf8.decode content)

end Compilation

namespace Build

/-! ## Analysis -/

/-- The name under which a source is shown: its path from the root, unless it lies outside. -/
def shownPath (b : Build) (source : Path) : String :=
  match source.relativeTo? b.root with
  | some relative =>
    let text := relative.text
    if "..".toList.isPrefixOf text.toList then source.text else text
  | none => source.text

/-- What the analysis of a file gives. -/
structure Examined where
  source : Path
  shown : String
  compilation : Option Compilation
  steps : List AnalysisStep
deriving Repr

/-- The steps that tell what is wrong with a text. -/
def tellErrors (content : Option Bytes) (shown : String) (c : Compilation) : List AnalysisStep :=
  c.errors.map fun d => .tell (.ofDiagnostic content shown d)

/-- Analyses a file, if it can be read. -/
def examine (b : Build) (source : Path) (content : Except FileError Bytes) : Examined :=
  let shown := b.shownPath source
  match content with
  | .error e =>
    if e.action == .reading then
      let c := Compilation.ofReadError e
      ⟨source, shown, some c, tellErrors none shown c⟩
    else
      ⟨source, shown, none, [.fail s!"failed to open source file `{shown}`: {e.text}"]⟩
  | .ok content =>
    match Compilation.ofBytes content with
    | .ok c => ⟨source, shown, some c, tellErrors (some content) shown c⟩
    | .error f => ⟨source, shown, none, [.tell (.ofFault shown f)]⟩

/-! ## Outputs -/

/-- A text without an ending, if it has that. -/
def dropEnding (ending text : String) : String :=
  let cs := text.toList
  if ending.toList.isSuffixOf cs then String.ofList (cs.take (cs.length - ending.length))
  else text

/-- The output of a source: below the output directory, where the source is below the root. A
source outside the root has its output directly in the output directory. -/
def outputPath (b : Build) (source : Path) : Path :=
  let shown := b.shownPath source
  let relative := if Path.isAbsoluteText shown then source.name else shown
  b.outputDir.join (dropEnding sourceEnding relative ++ OutputKind.text.ending)

def outputPaths (b : Build) : List Path := b.sources.map b.outputPath

/-- What there is to tell about sources with the output of a source before them. -/
def conflicts (b : Build) (before : List Path) : List Path → List Notice
  | [] => []
  | source :: rest =>
    let path := b.outputPath source
    match before.find? fun owner => b.outputPath owner == path with
    | some owner =>
      let message := s!"output `{path.text}` is also produced by `{b.shownPath owner}`"
      .failure (b.shownPath source) message :: b.conflicts (before ++ [source]) rest
    | none => b.conflicts (before ++ [source]) rest

/-- The steps of writing one output. -/
def writeSteps (output : Path) (content : Bytes) : List WriteStep :=
  [.makeDirectories output.parent, .write output content]

def writeFailure (e : FileError) : WriteStep → String
  | .makeDirectories _ => s!"failed to create output directory: {e.text}"
  | .write path _ => s!"failed to open output file `{path.text}`: {e.text}"

/-- The object file that is assembled from an output. -/
def objectPath (output : Path) : Path :=
  let name := dropEnding OutputKind.text.ending output.name ++ OutputKind.object.ending
  output.parent.child name

def assemblerArgs (profile : Profile) (output object : Path) : List String :=
  ["-filetype=obj", s!"-O{profile.optLevel}", "-o", object.text, output.text]

end Build

end Oberlet
