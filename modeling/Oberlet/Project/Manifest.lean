import Oberlet.Project.Basic
import Oberlet.Toml.Reader

/-!
# Project files

What is missing in a project file has a default, what is unknown is ignored, and a value of the
wrong kind makes the file malformed.
-/

namespace Oberlet

/-- The table `project`. -/
structure Manifest.Header where
  name : String
  sources : List String
  outputDir : String
  level : String
  version : String
deriving DecidableEq, Repr

/-- A table of the list `profiles`. -/
structure Manifest.ProfileEntry where
  name : String
  output : String
  assembler : String
  optLevel : Int
  isDefault : Bool
deriving DecidableEq, Repr

/-- What a project file says. -/
structure Manifest where
  header : Option Manifest.Header
  profiles : List Manifest.ProfileEntry
deriving DecidableEq, Repr

namespace Manifest

open Toml

/-! ## Reading -/

/-- The value of a name, which may also be written in capital letters. -/
def field? (t : Table) (key : String) : Option Value :=
  (t.lookup? key).or (t.lookup? (String.ofList (key.toList.map Char.toUpper)))

def text? : Value → Option String
  | .string s => some s
  | _ => none

def texts? : Value → Option (List String)
  | .array items => items.mapM text?
  | _ => none

def integer? : Value → Option Int
  | .integer n => some n
  | _ => none

def boolean? : Value → Option Bool
  | .boolean b => some b
  | _ => none

/-- A value of a kind, or a default. -/
def fieldOr? {α : Type} (t : Table) (key : String) (read : Value → Option α) (default : α) :
    Option α :=
  match field? t key with
  | none => some default
  | some value => read value

def Header.ofTable? (t : Table) : Option Header := do
  return {
    name := ← fieldOr? t "name" text? ""
    sources := ← fieldOr? t "sources" texts? []
    outputDir := ← fieldOr? t "output-dir" text? ""
    level := ← fieldOr? t "log-level" text? ""
    version := ← fieldOr? t "beblang-version" text? "" }

def ProfileEntry.ofTable? (t : Table) : Option ProfileEntry := do
  return {
    name := ← fieldOr? t "name" text? ""
    output := ← fieldOr? t "emit" text? ""
    assembler := ← fieldOr? t "llc-path" text? ""
    optLevel := ← fieldOr? t "opt-level" integer? 0
    isDefault := ← fieldOr? t "default" boolean? false }

def header? : Value → Option (Option Header)
  | .table t => do return some (← Header.ofTable? t)
  | _ => none

def profiles? : Value → Option (List ProfileEntry)
  | .tables list => list.mapM ProfileEntry.ofTable?
  | _ => none

def ofTable? (t : Table) : Option Manifest := do
  return {
    header := ← fieldOr? t "project" header? none
    profiles := ← fieldOr? t "profiles" profiles? [] }

def ofBytes (content : Bytes) : Except ReadError Manifest := do
  needed (ofTable? (← read (Text.Utf8.decode content)))

/-- Whether a file has a project name. -/
def namesProject (content : Bytes) : Except ReadError Bool := do
  let t ← read (Text.Utf8.decode content)
  match t.get? ["project", "name"] with
  | some (.string name) => return name != ""
  | _ => return false

/-! ## Profiles -/

/-- The profile that a table describes. -/
def ProfileEntry.profile (entry : ProfileEntry) : Except ProjectError Profile := do
  if entry.name == "" then throw .unnamedProfile
  let output ← if entry.output == "" then pure Profile.default.output
    else match OutputKind.ofName? entry.output with
      | some kind => pure kind
      | none => throw (.badOutput entry.name entry.output)
  if entry.optLevel < 0 || 3 < entry.optLevel then throw (.badOptLevel entry.name)
  return {
    name := entry.name
    output
    assembler := if entry.assembler == "" then Profile.default.assembler else entry.assembler
    optLevel := entry.optLevel.toNat }

/-- The profile to build with: the selected one or, if none is selected, the first that is marked
as the default, or else the first. -/
def profile (m : Manifest) (project selected : String) : Except ProjectError Profile :=
  if selected != "" then
    match m.profiles.find? (·.name == selected) with
    | some entry => entry.profile
    | none => throw (.noProfile project selected)
  else match m.profiles.find? (·.isDefault), m.profiles with
    | some entry, _ => entry.profile
    | none, entry :: _ => entry.profile
    | none, [] => return .default

/-! ## Writing -/

/-- The content of a new project file. -/
def template (name : String) : String :=
  "\n[[profiles]]\n"
    ++ "  default = true\n"
    ++ "  emit = \"ll\"\n"
    ++ "  name = \"debug\"\n"
    ++ "  opt-level = 0\n"
    ++ "\n[[profiles]]\n"
    ++ "  default = false\n"
    ++ "  emit = \"obj\"\n"
    ++ "  llc-path = \"llc\"\n"
    ++ "  name = \"release\"\n"
    ++ "  opt-level = 2\n"
    ++ "\n[project]\n"
    ++ "  beblang-version = \"" ++ languageVersion ++ "\"\n"
    ++ "  name = \"" ++ name ++ "\"\n"
    ++ "  output-dir = \"out\"\n"
    ++ "  sources = [\"*" ++ sourceEnding ++ "\"]\n"

end Manifest

end Oberlet
