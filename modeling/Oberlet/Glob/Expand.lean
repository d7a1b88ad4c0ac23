import Oberlet.Glob.Pattern
import Oberlet.Host.Job

/-!
# Files that match a pattern
-/

namespace Oberlet.Glob

/-- The entries of a directory that match a pattern. -/
def search (pattern : Pattern) (dir : Path) : Job (List Path) := do
  let names ← Job.names dir
  return (names.filter fun name => pattern.matches (Text.Utf8.encode name)).map dir.child

def searchAll (pattern : Pattern) : List Path → Job (List Path)
  | [] => return []
  | dir :: dirs => do
    let found ← search pattern dir
    return found ++ (← searchAll pattern dirs)

/-- Searches every directory reached so far for the entries that match the next name. -/
def follow : List Pattern → List Path → Job (List Path)
  | [], paths => return paths
  | pattern :: rest, paths => do follow rest (← searchAll pattern paths)

/-- The paths that match a path whose names are patterns. The names at its beginning that need no
matching are followed as they are. There is no result when a name is malformed. -/
def expand? (pattern : Path) : Job (Option (List Path)) := do
  let start : Path := ⟨pattern.absolute, pattern.parts.takeWhile (!hasMeta ·)⟩
  match (pattern.parts.dropWhile (!hasMeta ·)).mapM Pattern.ofText? with
  | none => return none
  | some [] =>
    match ← Job.isDirectory start with
    | .ok _ => return some [start]
    | .error _ => return some []
  | some patterns => return some (← follow patterns [start])

end Oberlet.Glob
