import Oberlet.Host.Path
import Oberlet.Text.Utf8

/-!
# Files

An entry is only reached through directories.
-/

namespace Oberlet

inductive FileError.Reason
  | notFound
  | notDirectory
  | isDirectory
  | denied
deriving DecidableEq, Repr

def FileError.Reason.text : FileError.Reason → String
  | notFound => "no such file or directory"
  | notDirectory => "not a directory"
  | isDirectory => "is a directory"
  | denied => "permission denied"

inductive FileError.Action
  | stat
  | opening
  | reading
  | makingDirectory
deriving DecidableEq, Repr

def FileError.Action.text : FileError.Action → String
  | stat => "stat"
  | opening => "open"
  | reading => "read"
  | makingDirectory => "mkdir"

/-- What could not be done to which path, and why. -/
structure FileError where
  action : FileError.Action
  path : String
  reason : FileError.Reason
deriving DecidableEq, Repr

def FileError.text (e : FileError) : String :=
  e.action.text ++ " " ++ e.path ++ ": " ++ e.reason.text

/-- A file with its content, or a directory. -/
inductive Entry
  | file (content : Bytes) (executable : Bool)
  | directory
deriving DecidableEq, Repr

/-- A tree of files, listed by the names that lead to them. -/
structure FileTree where
  entries : List (List String × Entry)
deriving DecidableEq, Repr

namespace FileTree

/-- The entry of an absolute path. The root is a directory. -/
def entry? (t : FileTree) : List String → Option Entry
  | [] => some .directory
  | parts => List.lookup parts t.entries

/-- Follows names from a place, through directories. -/
def walk (t : FileTree) (reached : List String) :
    List String → Except FileError.Reason Entry
  | [] => match t.entry? reached with
    | some entry => return entry
    | none => throw .notFound
  | name :: rest => match t.entry? reached with
    | some .directory => t.walk (reached ++ [name]) rest
    | some (.file _ _) => throw .notDirectory
    | none => throw .notFound

def resolve (t : FileTree) (path : Path) : Except FileError.Reason Entry :=
  t.walk [] path.parts

/-- The tree with an entry in the place of the old one. -/
def put (t : FileTree) (parts : List String) (entry : Entry) : FileTree :=
  if (List.lookup parts t.entries).isSome then
    ⟨t.entries.map fun (p, e) => if p == parts then (p, entry) else (p, e)⟩
  else ⟨t.entries ++ [(parts, entry)]⟩

def fail {α : Type} (action : FileError.Action) (path : Path) (reason : FileError.Reason) :
    Except FileError α :=
  throw ⟨action, path.text, reason⟩

def isDirectory (t : FileTree) (path : Path) : Except FileError Bool :=
  match t.resolve path with
  | .ok .directory => return true
  | .ok (.file _ _) => return false
  | .error reason => fail .stat path reason

/-- The content of a file. A directory can be opened, but not read. -/
def read (t : FileTree) (path : Path) : Except FileError Bytes :=
  match t.resolve path with
  | .ok (.file content _) => return content
  | .ok .directory => fail .reading path .isDirectory
  | .error reason => fail .opening path reason

/-- The names in a directory. -/
def names (t : FileTree) (path : Path) : List String :=
  t.entries.filterMap fun (parts, _) =>
    if parts != [] && parts.dropLast == path.parts then parts.getLast? else none

/-- Gives a file its content. The directory of the file must be there. -/
def write (t : FileTree) (path : Path) (content : Bytes) : Except FileError FileTree :=
  match t.resolve path.parent with
  | .error reason => fail .opening path reason
  | .ok (.file _ _) => fail .opening path .notDirectory
  | .ok .directory =>
    match t.entry? path.parts with
    | some .directory => fail .opening path .isDirectory
    | some (.file _ executable) => return t.put path.parts (.file content executable)
    | none => return t.put path.parts (.file content false)

def makeDirectoriesFrom (t : FileTree) (reached : List String) :
    List String → Except FileError FileTree
  | [] => return t
  | name :: rest =>
    let parts := reached ++ [name]
    match t.entry? parts with
    | some .directory => t.makeDirectoriesFrom parts rest
    | some (.file _ _) => fail .makingDirectory ⟨true, parts⟩ .notDirectory
    | none => (t.put parts .directory).makeDirectoriesFrom parts rest

/-- Makes the directories of a path that are missing. -/
def makeDirectories (t : FileTree) (path : Path) : Except FileError FileTree :=
  t.makeDirectoriesFrom [] path.parts

end FileTree

end Oberlet
