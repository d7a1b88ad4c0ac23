import Oberlet.Host.FileTree

/-!
# Projects
-/

namespace Oberlet

def languageVersion : String := "0.1.0"

def sourceEnding : String := ".beb"

def projectFileName : String := "beblang.toml"

/-- Whether a text can be the name of a project: a letter or an underscore, and then letters,
digits and underscores. Only the letters from a to z count. -/
def isProjectName : List Char → Bool
  | [] => false
  | c :: rest => (c.isAlpha || c == '_') && rest.all fun c => c.isAlphanum || c == '_'

/-- What is produced of a source: the text of the target module, or an object file. -/
inductive OutputKind
  | text
  | object
deriving DecidableEq, Repr

namespace OutputKind

def ofName? : String → Option OutputKind
  | "ll" => some text
  | "obj" => some object
  | _ => none

def ending : OutputKind → String
  | text => ".ll"
  | object => ".o"

end OutputKind

/-- How a project is built: what is produced and, for object files, by which program at which
optimization level. -/
structure Profile where
  name : String
  output : OutputKind
  assembler : String
  optLevel : Nat
deriving DecidableEq, Repr

/-- The profile of a project that has none. -/
def Profile.default : Profile := ⟨"default", .text, "llc", 0⟩

/-- A project: its name, its directory, its sources in order, the directory for outputs, and the
name of the level at which it wants to be built, which may be empty. -/
structure Project where
  name : String
  root : Path
  sources : List Path
  outputDir : Path
  level : String
deriving DecidableEq, Repr

/-- Why a project cannot be loaded or created. -/
inductive ProjectError
  | unreadable (e : FileError)
  | malformed
  | missingName (root : Path)
  | invalidName
  | noSources (project : String)
  | badPattern (pattern : String)
  | noMatch (pattern : String)
  | noProfile (project profile : String)
  | unnamedProfile
  | badOutput (profile kind : String)
  | badOptLevel (profile : String)
  | alreadyExists
  | blocked (e : FileError)
  | uncreatable (e : FileError)
deriving DecidableEq, Repr

def ProjectError.message : ProjectError → String
  | unreadable e => e.text
  | malformed => s!"error decoding {projectFileName}: malformed file"
  | missingName root => s!"missing project name for project at {root.text}"
  | invalidName => "project name must be a valid identifier"
  | noSources project => s!"project `{project}` must specify at least one source"
  | badPattern pattern => s!"invalid source pattern `{pattern}`: syntax error in pattern"
  | noMatch pattern => s!"source pattern `{pattern}` matches no files"
  | noProfile project profile => s!"project `{project}` has no profile `{profile}`"
  | unnamedProfile => "profile must specify a name"
  | badOutput profile kind => s!"profile `{profile}`: {kind} is not a valid output kind"
  | badOptLevel profile => s!"profile `{profile}`: optimization level must be between 0 and 3"
  | alreadyExists => "project file already exists"
  | blocked e => s!"project file error: {e.text}"
  | uncreatable e => s!"error creating project file: {e.text}"

end Oberlet
