import Oberlet.Host.FileTree

/-!
# Jobs
-/

namespace Oberlet

/-- What a job can ask its host for. -/
inductive Request
  | isDirectory (path : Path)
  | read (path : Path)
  | names (path : Path)
  | makeDirectories (path : Path)
  | write (path : Path) (content : Bytes)
  | print (text : String)
  | readLine
  | locate (program : String)
  | execute (program : String) (args : List String)
  | workDir
  | home
  | elapsed
deriving DecidableEq, Repr

/-- What a program that failed had to say, and how it ended. -/
structure ProgramFailure where
  complaint : String
  ending : String
deriving DecidableEq, Repr

/-- The text of a failure: what the program had to say, or else how it ended. -/
def ProgramFailure.text (f : ProgramFailure) : String :=
  if f.complaint == "" then f.ending else f.complaint

/-- What a job gets for a request. A program that cannot be found gives a reason; the time since
the last request for it is given as it is to be shown. -/
def Request.Reply : Request → Type
  | isDirectory _ => Except FileError Bool
  | read _ => Except FileError Bytes
  | names _ => List String
  | makeDirectories _ => Except FileError Unit
  | write _ _ => Except FileError Unit
  | print _ => Unit
  | readLine => Option String
  | locate _ => Except String Unit
  | execute _ _ => Except ProgramFailure Unit
  | workDir => Path
  | home => Path
  | elapsed => String

/-- A computation that asks its host for what it cannot do alone. What happens to it depends on the
host: a machine that exists only as a value, or the system the job runs on. -/
inductive Job (α : Type) : Type
  | done (value : α)
  | exit (code : Nat)
  | ask (request : Request) (next : request.Reply → Job α)

namespace Job

def bind {α β : Type} : Job α → (α → Job β) → Job β
  | done value, f => f value
  | exit code, _ => exit code
  | ask request next, f => ask request fun reply => (next reply).bind f

instance : Monad Job where
  pure := done
  bind := bind

/-! ## Requests -/

/-- Asks for something and returns the reply. -/
def request (r : Request) : Job r.Reply := ask r done

def isDirectory (path : Path) : Job (Except FileError Bool) := request (.isDirectory path)

def read (path : Path) : Job (Except FileError Bytes) := request (.read path)

/-- The names in a directory, in no particular order; none if it cannot be read. -/
def names (path : Path) : Job (List String) := request (.names path)

def makeDirectories (path : Path) : Job (Except FileError Unit) :=
  request (.makeDirectories path)

def write (path : Path) (content : Bytes) : Job (Except FileError Unit) :=
  request (.write path content)

def print (text : String) : Job Unit := request (.print text)

def readLine : Job (Option String) := request .readLine

def locate (program : String) : Job (Except String Unit) := request (.locate program)

def execute (program : String) (args : List String) : Job (Except ProgramFailure Unit) :=
  request (.execute program args)

def workDir : Job Path := request .workDir

def home : Job Path := request .home

def elapsed : Job String := request .elapsed

end Job

end Oberlet
