/-!
# How much is shown
-/

namespace Oberlet

/-- How much is shown. Each level shows what the ones before it show, and more. -/
inductive Level
  | silent
  | error
  | warn
  | verbose
deriving DecidableEq, Repr

namespace Level

def rank : Level → Nat
  | silent => 0
  | error => 1
  | warn => 2
  | verbose => 3

/-- The level with a name; everything is shown for a name that no level has. -/
def ofName : String → Level
  | "silent" => silent
  | "error" => error
  | "warn" => warn
  | "warning" => warn
  | _ => verbose

def showsErrors (level : Level) : Bool := error.rank ≤ level.rank

def showsWarnings (level : Level) : Bool := warn.rank ≤ level.rank

def showsProgress (level : Level) : Bool := level == verbose

end Level

end Oberlet
