import Oberlet.Proofs.Analysis.Ordered
import Oberlet.Proofs.Compilation

/-!
# Spans of diagnostics

The analysis takes spans from the tree, and from the symbols that the tree has given to the symbol
table; only the built-in subprograms have none.
-/

namespace Oberlet

/-- Every text is compiled or refused with diagnostics that point into it. -/
theorem Compilation.exists_sited (source : List Char) :
    ∃ compilation, Compilation.ofSource source = .ok compilation ∧
      ∀ d ∈ compilation.errors, d.Sited .origin source := by
  cases hparse : Program.parse source with
  | error d =>
    exact ⟨.unreadable d, Compilation.ofSource_of_error hparse,
      List.forall_mem_singleton.mpr (Program.sited_of_parse hparse)⟩
  | ok p =>
    obtain ⟨a, hanalyze, -⟩ := (Program.regular_of_ofTokens hparse).analyze
    refine ⟨.analyzed p a.notes, Compilation.ofSource_of_analyze hparse hanalyze, ?_⟩
    obtain ⟨hi, hascending⟩ := Program.analyze_ascending hparse hanalyze
    exact hascending.each

/-- Reading and analysing a text never fails, and all diagnostics about the text, however many, have
spans that are ranges of it. -/
theorem diagnostics_lie_in_text (source : List Char) :
    ∃ compilation, Compilation.ofSource source = .ok compilation ∧
      ∀ d ∈ compilation.errors, d.LiesIn source := by
  obtain ⟨compilation, hcompilation, hsited⟩ := Compilation.exists_sited source
  exact ⟨compilation, hcompilation, fun d hd => (hsited d hd).liesIn⟩

end Oberlet
