import Oberlet.Console.Basic
import Oberlet.Host.Job

/-!
# Runs
-/

namespace Oberlet

/-- A job that talks to its user through a console. -/
abbrev Run (α : Type) := StateT Console Job α

namespace Run

def exit {α : Type} (code : Nat) : Run α := StateT.lift (Job.exit code)

/-- Goes on or ends the run, as a notice demands. -/
def proceed : Aftermath → Run Unit
  | .continues => return
  | .exits code => exit code
  | .breaks => exit 2

/-- Shows the user a notice. -/
def tell (notice : Notice) : Run Unit := do
  let (console, shown) := (← get).tell notice
  set console
  Job.print shown.text
  proceed shown.next

def tellAll : List Notice → Run Unit
  | [] => return
  | notice :: rest => do
    tell notice
    tellAll rest

def anyErrors : Run Bool := return (← get).anyErrors

/-- Shows a line whatever the level. -/
def message (tag text : String) : Run Unit := Job.print (Console.tagged tag text)

end Run

end Oberlet
