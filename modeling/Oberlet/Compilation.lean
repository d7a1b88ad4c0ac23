import Oberlet.Analysis.Program
import Oberlet.Lowering.Program
import Oberlet.Tree.Parser

/-!
# Compiling the text of a module
-/

namespace Oberlet

/-- A text that cannot be read has one diagnostic; analysis finds all that is wrong with a tree. -/
inductive Compilation
  | unreadable (error : Diagnostic)
  | analyzed (program : Program) (notes : Notes)
deriving Repr

namespace Compilation

/-- Reads a text and analyses its tree. -/
def ofSource (source : List Char) : Except Fault Compilation :=
  match Program.parse source with
  | .error error => return unreadable error
  | .ok program => return analyzed program (← program.analyze).notes

def errors : Compilation → List Diagnostic
  | unreadable error => [error]
  | analyzed _ notes => notes.errors

/-- The target module of a text. One that has errors must not be asked for it. -/
def generate : Compilation → Except Fault Llvm.Module
  | unreadable _ => throw (.unitHasErrors "")
  | analyzed program notes =>
    if notes.errors.isEmpty then program.lower notes.annotations
    else throw (.unitHasErrors program.name.name)

/-- The target module of a text, if nothing is wrong with it, and all that is wrong otherwise. -/
def compile (source : List Char) : Except Fault (Except (List Diagnostic) Llvm.Module) := do
  let compilation ← ofSource source
  if compilation.errors.isEmpty then return .ok (← compilation.generate)
  else return .error compilation.errors

end Compilation

end Oberlet
