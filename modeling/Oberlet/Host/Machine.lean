import Oberlet.Host.Job
import Oberlet.Text.Quoted

/-!
# Machines

Running a job on a machine is a function, so what a job does to the files is something that can be
stated.
-/

namespace Oberlet

/-- A host as a value. `effect` says what an executable file does, by its content and arguments:
whether it succeeds, and what becomes of the files. The lines of `input` end with their line
feeds. -/
structure Machine where
  files : FileTree
  workDir : Path
  home : Path
  searchPath : List Path
  input : List String
  output : String
  clock : String
  effect : Bytes → List String → FileTree → Except ProgramFailure Unit × FileTree

namespace Machine

/-! ## Programs -/

/-- Whether a program is named by a path. -/
def isProgramPath (program : String) : Bool := program.toList.contains '/'

/-- The content of a file that can be started. -/
def startable (program : String) : Except FileError.Reason Entry → Except String Bytes
  | .ok (.file content true) => return content
  | .ok (.file _ false) => throw FileError.Reason.denied.text
  | .ok .directory => throw FileError.Reason.isDirectory.text
  | .error reason => throw (FileError.mk .stat program reason).text

/-- The content of a program: a file named by a path, or the first file of its name in the
directories in which programs are looked for. -/
def program? (m : Machine) (program : String) : Except String Bytes :=
  if isProgramPath program then
    startable program (m.files.resolve (.resolve m.workDir program))
  else
    let found := m.searchPath.findSome? fun dir =>
      match m.files.resolve (dir.child program) with
      | .ok (.file content true) => some content
      | _ => none
    match found with
    | some content => return content
    | none => throw "executable file not found in $PATH"

def locate (m : Machine) (program : String) : Except String Unit :=
  match m.program? program with
  | .ok _ => return
  | .error reason => throw ("exec: " ++ Text.Quoted.text program ++ ": " ++ reason)

def execute (m : Machine) (program : String) (args : List String) :
    Except ProgramFailure Unit × Machine :=
  match m.program? program with
  | .error reason => (throw ⟨"", reason⟩, m)
  | .ok content =>
    let (result, files) := m.effect content args m.files
    (result, { m with files })

/-! ## Requests -/

/-- The machine with the files changed, if that succeeds. -/
def change (m : Machine) : Except FileError FileTree → Except FileError Unit × Machine
  | .ok files => (return, { m with files })
  | .error e => (throw e, m)

/-- The reply of a machine to a request. -/
def answer (m : Machine) : (r : Request) → r.Reply × Machine
  | .isDirectory path => (m.files.isDirectory path, m)
  | .read path => (m.files.read path, m)
  | .names path => (m.files.names path, m)
  | .makeDirectories path => m.change (m.files.makeDirectories path)
  | .write path content => m.change (m.files.write path content)
  | .print text => ((), { m with output := m.output ++ text })
  | .readLine => match m.input with
    | [] => (none, m)
    | line :: rest => (some line, { m with input := rest })
  | .locate program => (m.locate program, m)
  | .execute program args => m.execute program args
  | .workDir => (m.workDir, m)
  | .home => (m.home, m)
  | .elapsed => (m.clock, m)

end Machine

inductive Job.Outcome (α : Type)
  | value (a : α)
  | exited (code : Nat)
deriving DecidableEq, Repr

/-- What becomes of a job on a machine. -/
def Job.run {α : Type} : Job α → Machine → Job.Outcome α × Machine
  | done value, m => (.value value, m)
  | exit code, m => (.exited code, m)
  | ask request next, m =>
    let (reply, m) := m.answer request
    (next reply).run m

end Oberlet
