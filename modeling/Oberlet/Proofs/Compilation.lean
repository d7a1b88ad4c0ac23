import Oberlet.Compilation
import Oberlet.Proofs.Lowering.Program

/-!
# Compiling never fails
-/

namespace Oberlet

open Llvm Compilation

/-- A module that was read and in which nothing is wrong is well formed and fully annotated. -/
theorem Program.accepted {p : Program} {source : List Char} {analysis : Analysis}
    (hparse : Program.parse source = .ok p) (hanalyze : p.analyze = .ok analysis)
    (haccepted : analysis.notes.errors = []) :
    p.WellFormed ∧ p.Regular ∧ p.Annotated analysis.notes.annotations := by
  have hregular := Program.regular_of_ofTokens hparse
  obtain ⟨_, hanalyze', hiff, hannotated⟩ := hregular.analyze
  cases hanalyze.symm.trans hanalyze'
  exact ⟨hiff.mp haccepted, hregular, hannotated haccepted⟩

/-- Analysing a tree that was read does not fail, nor does generating code if it is accepted. -/
theorem Program.stages_succeed {p : Program} {source : List Char}
    (hparse : Program.parse source = .ok p) : ∃ analysis, p.analyze = .ok analysis ∧
      (analysis.notes.errors = [] → ∃ m, p.lower analysis.notes.annotations = .ok m) := by
  obtain ⟨analysis, hanalyze, -⟩ := (Program.regular_of_ofTokens hparse).analyze
  refine ⟨analysis, hanalyze, fun haccepted => ?_⟩
  obtain ⟨hwell, hregular, hannotated⟩ := Program.accepted hparse hanalyze haccepted
  obtain ⟨m, _, hlower, -⟩ := Program.lower_realizes hwell hregular hannotated
  exact ⟨m, hlower⟩

namespace Compilation

variable {source : List Char} {c : Compilation} {m : Module}

theorem exists_of_view {β : Type} {view : Module → β} {value : β}
    (h : ((compile source).toOption.bind (·.toOption)).map view = some value) :
    ∃ m, compile source = .ok (.ok m) ∧ view m = value := by
  obtain ⟨m, hm, hview⟩ := Option.map_eq_some_iff.mp h
  obtain ⟨result, hresult, hm⟩ := Option.bind_eq_some_iff.mp hm
  exact ⟨m, (eq_ok_of_toOption hresult).trans (congrArg _ (eq_ok_of_toOption hm)), hview⟩

theorem ofSource_of_error {d : Diagnostic} (h : Program.parse source = .error d) :
    ofSource source = .ok (.unreadable d) := by
  rw [ofSource, h]
  rfl

theorem ofSource_of_analyze {p : Program} {analysis : Analysis}
    (hparse : Program.parse source = .ok p) (hanalyze : p.analyze = .ok analysis) :
    ofSource source = .ok (.analyzed p analysis.notes) := by
  rw [ofSource, hparse]
  simp [hanalyze, pure, Except.pure, bind, Except.bind]

theorem generate_of_lower {p : Program} {notes : Notes} (herrors : notes.errors = [])
    (hm : p.lower notes.annotations = .ok m) : (analyzed p notes).generate = .ok m := by
  rw [generate, if_pos (by simpa using herrors), hm]

theorem compile_of_errors (h : ofSource source = .ok c) (herrors : c.errors ≠ []) :
    compile source = .ok (.error c.errors) := by
  simp [compile, h, herrors, pure, Except.pure, bind, Except.bind]

theorem compile_of_generate (h : ofSource source = .ok c) (herrors : c.errors = [])
    (hm : c.generate = .ok m) : compile source = .ok (.ok m) := by
  simp [compile, h, herrors, hm, pure, Except.pure, bind, Except.bind]

/-- A target module comes from a tree in which the analysis found nothing wrong. -/
theorem stages (h : compile source = .ok (.ok m)) :
    ∃ p analysis, Program.parse source = .ok p ∧ p.analyze = .ok analysis ∧
      analysis.notes.errors = [] ∧ p.lower analysis.notes.annotations = .ok m := by
  cases hparse : Program.parse source with
  | error d =>
    rw [compile_of_errors (ofSource_of_error hparse) (List.cons_ne_nil _ _)] at h
    cases h
  | ok p =>
    obtain ⟨analysis, hanalyze, hlower⟩ := Program.stages_succeed hparse
    have hc := ofSource_of_analyze hparse hanalyze
    by_cases herrors : analysis.notes.errors = []
    · obtain ⟨m', hm'⟩ := hlower herrors
      rw [compile_of_generate hc herrors (generate_of_lower herrors hm')] at h
      cases h
      exact ⟨p, analysis, rfl, hanalyze, herrors, hm'⟩
    · rw [compile_of_errors hc herrors] at h
      cases h

/-- A text in which nothing is wrong has a target module, and any other is refused. -/
theorem compile_cases (source : List Char) : ∃ c, ofSource source = .ok c ∧
    ((c.errors = [] ∧ ∃ m, c.generate = .ok m ∧ compile source = .ok (.ok m)) ∨
      c.errors ≠ [] ∧ compile source = .ok (.error c.errors)) := by
  cases hparse : Program.parse source with
  | error d =>
    have hc := ofSource_of_error hparse
    have herrors : (unreadable d).errors ≠ [] := List.cons_ne_nil _ _
    exact ⟨_, hc, .inr ⟨herrors, compile_of_errors hc herrors⟩⟩
  | ok p =>
    obtain ⟨analysis, hanalyze, hlower⟩ := Program.stages_succeed hparse
    have hc := ofSource_of_analyze hparse hanalyze
    by_cases herrors : analysis.notes.errors = []
    · obtain ⟨m, hm⟩ := hlower herrors
      have hm := generate_of_lower herrors hm
      exact ⟨_, hc, .inl ⟨herrors, m, hm, compile_of_generate hc herrors hm⟩⟩
    · exact ⟨_, hc, .inr ⟨herrors, compile_of_errors hc herrors⟩⟩

/-- A text is refused with at least one diagnostic. -/
theorem errors_ne_nil {errors : List Diagnostic} (h : compile source = .ok (.error errors)) :
    errors ≠ [] := by
  obtain ⟨c, -, ⟨-, m, -, hcompile⟩ | ⟨herrors, hcompile⟩⟩ := compile_cases source
  · cases hcompile.symm.trans h
  · cases hcompile.symm.trans h
    exact herrors

end Compilation

/-- Every text is refused with a diagnostic or has a target module. The analysis of a tree that was
read never fails, and neither does code generation for one that is accepted. -/
theorem compile_never_faults (source : List Char) :
    ((∃ errors, errors ≠ [] ∧ Compilation.compile source = .ok (.error errors)) ∨
      ∃ m, Compilation.compile source = .ok (.ok m)) ∧
    ∀ p, Program.parse source = .ok p → ∃ analysis, p.analyze = .ok analysis ∧
      (analysis.notes.errors = [] → ∃ m, p.lower analysis.notes.annotations = .ok m) := by
  refine ⟨?_, fun p => Program.stages_succeed⟩
  obtain ⟨c, -, ⟨-, m, -, hcompile⟩ | ⟨herrors, hcompile⟩⟩ := compile_cases source
  · exact .inr ⟨m, hcompile⟩
  · exact .inl ⟨c.errors, herrors, hcompile⟩

end Oberlet
