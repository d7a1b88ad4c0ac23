import Oberlet.Main
import Oberlet.Proofs.Analysis.Disclosed
import Oberlet.Proofs.Analysis.Headings
import Oberlet.Proofs.Build.Mirrored
import Oberlet.Proofs.Console.Carets
import Oberlet.Proofs.Eval.Correct
import Oberlet.Proofs.Eval.Strings
import Oberlet.Proofs.Flow.Preserved
import Oberlet.Proofs.Lowering.Locals
import Oberlet.Proofs.Lowering.Names
import Oberlet.Proofs.Markdown.Extraction
import Oberlet.Proofs.Project.Sources
import Oberlet.Proofs.Repl.Continuation
import Oberlet.Proofs.Symbol.Scopes
import Oberlet.Proofs.Target.Strings
import Oberlet.Proofs.Tree.Progress
import Oberlet.Proofs.Tree.TypeText
