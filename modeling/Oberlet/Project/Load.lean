import Oberlet.Console.Run
import Oberlet.Glob.Expand
import Oberlet.Project.Manifest

/-!
# Finding, loading and creating projects
-/

namespace Oberlet.Project

def fileOf (dir : Path) : Path := dir.child projectFileName

/-- Whether a directory has a project file that names a project. A malformed file does not, and
something misplaced in a file ends the job. -/
def isRoot (dir : Path) : Job Bool := do
  match ← Job.isDirectory (fileOf dir) with
  | .ok false =>
    match ← Job.read (fileOf dir) with
    | .ok content =>
      match Manifest.namesProject content with
      | .ok names => return names
      | .error .malformed => return false
      | .error .misplaced => Job.exit 2
    | .error _ => return false
  | _ => return false

/-- The first directory that is the root of a project, among one given by its names from the last
to the first and those above it. -/
def findRootFrom? : List String → Job (Option Path)
  | [] => do
    let dir : Path := ⟨true, []⟩
    return if ← isRoot dir then some dir else none
  | name :: above => do
    let dir : Path := ⟨true, (name :: above).reverse⟩
    if ← isRoot dir then return some dir else findRootFrom? above

/-- The root of the project that a directory belongs to. -/
def findRoot? (dir : Path) : Job (Option Path) := findRootFrom? dir.parts.reverse

def textLe (a b : Path) : Bool := !(decide (b.text < a.text))

/-- Adds the paths that are not there yet. -/
def addNew (paths new : List Path) : List Path :=
  new.foldl (fun paths path => if path ∈ paths then paths else paths ++ [path]) paths

/-- The sources that patterns stand for, each once: in the order of the patterns, and in the order
of their texts for one pattern. Each pattern has to match something. -/
def resolveSources (root : Path) (found : List Path) :
    List String → Job (Except ProjectError (List Path))
  | [] => return .ok found
  | pattern :: rest => do
    match ← Glob.expand? (root.join pattern) with
    | none => return .error (.badPattern pattern)
    | some [] => return .error (.noMatch pattern)
    | some paths => resolveSources root (addNew found (paths.mergeSort textLe)) rest

/-- The table `project` of a file, which must name a project and its sources. -/
def validate (root : Path) (m : Manifest) : Except ProjectError Manifest.Header := do
  let some header := m.header | throw (.missingName root)
  if header.name == "" then throw (.missingName root)
  if !isProjectName header.name.toList then throw .invalidName
  if header.sources.isEmpty then throw (.noSources header.name)
  return header

/-- The project was made for another version. -/
def versionWarning (root : Path) (header : Manifest.Header) : Notice :=
  let project := s!"version of project `{header.name}` (v{header.version})"
  .warning none (fileOf root).text none
    (project ++ s!" does not match current beblang version (v{languageVersion})")

/-- The project that a project file describes. -/
def ofHeader (root : Path) (header : Manifest.Header) (sources : List Path) : Project :=
  { name := header.name
    root
    sources
    outputDir := if header.outputDir == "" then root else root.join header.outputDir
    level := header.level }

/-- Loads the project of a directory, with the selected profile if one is selected. Something
misplaced in the project file ends the run. -/
def load (root : Path) (selected : String) :
    Run (Except ProjectError (Project × Profile)) := do
  match ← Job.read (fileOf root) with
  | .error e => return .error (.unreadable e)
  | .ok content =>
    match Manifest.ofBytes content with
    | .error .malformed => return .error .malformed
    | .error .misplaced => Run.exit 2
    | .ok manifest =>
      match validate root manifest with
      | .error e => return .error e
      | .ok header =>
        if header.version != languageVersion then Run.tell (versionWarning root header)
        match ← resolveSources root [] header.sources with
        | .error e => return .error e
        | .ok sources =>
          match manifest.profile header.name selected with
          | .error e => return .error e
          | .ok profile => return .ok (ofHeader root header sources, profile)

/-- Writes a project file into a directory that has none. -/
def create (dir : Path) (name : String) : Job (Except ProjectError Unit) := do
  match ← Job.isDirectory (fileOf dir) with
  | .ok _ => return .error .alreadyExists
  | .error e =>
    if e.reason != .notFound then return .error (.blocked e)
    else if !isProjectName name.toList then return .error .invalidName
    else
      match ← Job.write (fileOf dir) (Text.Utf8.encode (Manifest.template name)) with
      | .ok () => return .ok ()
      | .error e => return .error (.uncreatable e)

end Oberlet.Project
