import Oberlet.Build.Run
import Oberlet.Cli.Args
import Oberlet.Project.Load
import Oberlet.Repl

/-!
# The commands
-/

namespace Oberlet.Cli

/-- A file is built for itself with the default profile, next to the file. -/
def buildOfFile (file : Path) : Build := ⟨file.parent, [file], file.parent, .default⟩

def buildOfProject (p : Project) (profile : Profile) : Build :=
  ⟨p.root, p.sources, p.outputDir, profile⟩

/-- What to build at a path, if it can be built. From here on the console has the level that was
asked for or, if that is the highest, the one that the project wants. -/
def loadBuild (text selected level : String) : Run (Option Build) := do
  let path := Path.resolve (← Job.workDir) text
  match ← Job.isDirectory path with
  | .error e =>
    Run.message "Path Error" e.text
    return none
  | .ok false =>
    if selected != "" then
      Run.message "Profile Error" "profiles can only be selected when building a project"
      return none
    modify (·.reset (.ofName level))
    return some (buildOfFile path)
  | .ok true =>
    let some root ← Project.findRoot? path
      | do
        Run.message "Project Error" s!"no {projectFileName} found in `{text}` or its parents"
        return none
    match ← Project.load root selected with
    | .error e =>
      Run.message "Project Load Error" e.message
      return none
    | .ok (project, profile) =>
      let level := if level == "verbose" && project.level != "" then project.level else level
      modify (·.reset (.ofName level))
      return some (buildOfProject project profile)

/-- Success is told by the exit code. -/
def exitCode (isFine : Bool) : Nat := if isFine then 0 else 1

def build (line : CommandLine) : Run Nat := do
  let some b ← loadBuild line.primary line.profile line.level | return 1
  Run.tell (.header languageVersion b.profile.name)
  let outputs ← b.compile
  let outputPath := match outputs with
    | some (first :: _) => first.parent.text
    | _ => ""
  Run.tell (.finished outputPath)
  return exitCode outputs.isSome

def check (line : CommandLine) : Run Nat := do
  let some b ← loadBuild line.primary "" line.level | return 1
  let isFine ← b.check
  Run.tell (.finished "")
  return exitCode isFine

/-- Prints the target code of a text, or what is wrong with it. -/
def emitCode (content : Option Bytes) (shown : String) (compilation : Except Fault Compilation) :
    Run Nat := do
  modify (Console.reset · .error)
  match compilation with
  | .error f =>
    Run.tell (.ofFault shown f)
    return 1
  | .ok compilation =>
    if !compilation.errors.isEmpty then
      Run.tellAll (compilation.errors.map (.ofDiagnostic content shown))
      return 1
    match compilation.generate with
    | .error f =>
      Run.tell (.ofFault shown f)
      return 1
    | .ok m =>
      Job.print m.text
      return 0

def emit (line : CommandLine) : Run Nat := do
  let shown := line.primary
  let content ← Job.read (.resolve (← Job.workDir) shown)
  match content with
  | .ok content => emitCode (some content) shown (Compilation.ofBytes content)
  | .error e =>
    if e.action == .reading then emitCode none shown (.ok (.ofReadError e))
    else
      Run.message "File Error" e.text
      return 1

/-- Makes a project of the working directory. -/
def modInit (line : CommandLine) : Run Nat := do
  let dir ← Job.workDir
  match ← Project.create dir line.primary with
  | .ok () => Run.message "Project Created" (Project.fileOf dir).text
  | .error e => Run.message "Project Init Error" e.message
  return 0

/-- What the program does with its arguments, where a session has at most `lines` lines. Returns
the exit code. -/
def run (lines : Nat) (args : List String) : Run Nat := do
  match CommandLine.ofArgs args with
  | .error e =>
    Run.message "CLI Usage Error" e.message
    return 1
  | .ok line =>
    match line.command with
    | .build => build line
    | .check => check line
    | .emit => emit line
    | .modInit => modInit line
    | .repl =>
      Repl.run lines
      return 0
    | .version =>
      Run.message "Beblang Version" languageVersion
      return 0
    | .main => return 0
    | .mod => return 0

end Oberlet.Cli
