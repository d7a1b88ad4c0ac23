import Oberlet.Console.Excerpt
import Oberlet.Console.Level

/-!
# The console

Work is shown as a sequence of phases. While a phase is running, its line is open; an error closes
it as failed.
-/

namespace Oberlet

/-- What a run tells its user. A notice about a place in a text comes with that text, if it is to
be quoted; `path` is the name under which a file is shown. -/
inductive Notice
  | error (source : Option Bytes) (path : String) (span : Option Span) (message : String)
  | warning (source : Option Bytes) (path : String) (span : Option Span)
      (message : String)
  | failure (path message : String)
  | info (tag message : String)
  | header (version profile : String)
  | phaseBegins (name : String)
  | phaseEnds (elapsed : String)
  | finished (outputPath : String)
  | internal (message : String)
  | fatal (message : String)
deriving DecidableEq, Repr

/-- What follows a notice: the run goes on, it ends with an exit code, or the notice could not be
shown because the name of its phase is too long. -/
inductive Aftermath
  | continues
  | exits (code : Nat)
  | breaks
deriving DecidableEq, Repr

/-- What a notice puts out, and what follows it. -/
structure Shown where
  text : String
  next : Aftermath
deriving DecidableEq, Repr

/-- The state of the console: its level, the number of errors and warnings so far, the name of the
last phase, and whether it is running. -/
structure Console where
  level : Level
  errors : Nat
  warnings : Nat
  phase : String
  running : Bool
deriving DecidableEq, Repr

namespace Console

def initial : Console := ⟨.verbose, 0, 0, "", false⟩

/-- Sets the level and begins to count again. -/
def reset (c : Console) (level : Level) : Console := { c with level, errors := 0, warnings := 0 }

def anyErrors (c : Console) : Bool := c.errors != 0

/-! ## Texts -/

def tagged (tag message : String) : String := tag ++ " " ++ message ++ "\n"

/-- A message about a place in a file. -/
def located (label : String) (source : Option Bytes) (path : String)
    (span : Option Span) (message : String) : String :=
  let place := match span with
    | none => path
    | some span => s!"{path}:{span.startLine + 1}:{span.startCol + 1}"
  let excerpt := match source, span with
    | some source, some span => Excerpt.render source span
    | _, _ => ""
  place ++ ": " ++ label ++ ": " ++ message ++ "\n\n" ++ excerpt

/-- A number with its noun. -/
def counted (count : Nat) (noun : String) : String :=
  toString count ++ " " ++ noun ++ (if count == 1 then "" else "s")

/-- How a build went. -/
def conclusion (c : Console) (outputPath : String) : String :=
  let verdict := if c.anyErrors then "Oh no! " else "All done! "
  let place := if !c.anyErrors && outputPath != "" then
    "output written to " ++ outputPath ++ "\n" else ""
  "\n" ++ verdict ++ "(" ++ counted c.errors "error" ++ ", " ++ counted c.warnings "warning"
    ++ ")\n" ++ place

/-! ## Phases -/

/-- The width of the column of phase names. -/
def phaseWidth : Nat := 12

/-- Blanks that fill the column of phase names behind a name, unless the name is too long. -/
def padding? (name : String) : Option String :=
  if name.utf8ByteSize ≤ phaseWidth then
    some (Excerpt.fill (phaseWidth - name.utf8ByteSize) ' ')
  else none

/-- Begins a phase. Its name is kept even if it is too long to be shown. -/
def beginPhase (c : Console) (name : String) : Console × Shown :=
  match padding? name with
  | none => ({ c with phase := name }, ⟨"", .breaks⟩)
  | some padding =>
    ({ c with phase := name, running := true }, ⟨name ++ "..." ++ padding ++ "\n", .continues⟩)

/-- Ends the running phase, if there is one, with `elapsed` shown for one that went well. -/
def endPhase (c : Console) (elapsed : Option String) : Console × Shown :=
  if !c.running then (c, ⟨"", .continues⟩)
  else match padding? c.phase, elapsed with
    | none, _ => (c, ⟨"", .breaks⟩)
    | some padding, some elapsed =>
      ({ c with running := false },
        ⟨"Done: " ++ c.phase ++ padding ++ "(" ++ elapsed ++ ")\n", .continues⟩)
    | some padding, none =>
      ({ c with running := false }, ⟨"Fail: " ++ c.phase ++ padding ++ "\n", .continues⟩)

/-- Closes the running phase as failed before a text is shown. -/
def interrupt (c : Console) (text : String) (next : Aftermath) : Console × Shown :=
  match c.endPhase none with
  | (c, ⟨_, .breaks⟩) => (c, ⟨"", .breaks⟩)
  | (c, shown) => (c, ⟨shown.text ++ text, next⟩)

/-! ## Notices -/

def showIf (c : Console) (condition : Bool) (text : String) : Console × Shown :=
  (c, ⟨if condition then text else "", .continues⟩)

/-- Counts an error, and shows it if the level does. -/
def showError (c : Console) (text : String) : Console × Shown :=
  let c := { c with errors := c.errors + 1 }
  if c.level.showsErrors then c.interrupt text .continues else (c, ⟨"", .continues⟩)

def internalText (message : String) : String :=
  "\n" ++ tagged "internal compiler error" message
    ++ "This error was not supposed to happen: it is a bug in the compiler.\n\n"

/-- What a notice brings about. Internal errors are shown at every level. -/
def tell (c : Console) : Notice → Console × Shown
  | .error source path span message =>
    c.showError (located "error" source path span message)
  | .failure path message => c.showError (located "error" none path none message)
  | .warning source path span message =>
    { c with warnings := c.warnings + 1 }.showIf c.level.showsWarnings
      (located "warning" source path span message)
  | .info tag message => c.showIf c.level.showsErrors (tagged tag message)
  | .header version profile =>
    c.showIf c.level.showsProgress ("beblang v" ++ version ++ " -- profile: " ++ profile ++ "\n")
  | .phaseBegins name =>
    if c.level.showsProgress then c.beginPhase name else (c, ⟨"", .continues⟩)
  | .phaseEnds elapsed =>
    if c.level.showsProgress then c.endPhase (if c.anyErrors then none else some elapsed)
    else (c, ⟨"", .continues⟩)
  | .finished outputPath => c.showIf c.level.showsProgress (c.conclusion outputPath)
  | .internal message => c.interrupt (internalText message) (.exits 255)
  | .fatal message =>
    if c.level.showsErrors then c.interrupt ("fatal error " ++ message ++ "\n\n") (.exits 1)
    else (c, ⟨"", .exits 1⟩)

/-- What notices bring about, up to one that ends the run. -/
def tellAll (c : Console) : List Notice → Console × Shown
  | [] => (c, ⟨"", .continues⟩)
  | notice :: rest =>
    match c.tell notice with
    | (c, ⟨text, .continues⟩) =>
      let (c, shown) := c.tellAll rest
      (c, { shown with text := text ++ shown.text })
    | ended => ended

end Console

end Oberlet
