import Oberlet.Proofs.Build.Diagnostics
import Oberlet.Proofs.Host.FileTree

/-!
# What a build writes
-/

namespace Oberlet

open WriteStep

/-- The host does what it is asked, if it is asked to change its files. -/
def Request.Granted : (r : Request) → r.Reply → Prop
  | .makeDirectories _, reply => reply = .ok ()
  | .write _ _, reply => reply = .ok ()
  | _, _ => True

instance : (r : Request) → (reply : r.Reply) → Decidable (r.Granted reply)
  | .makeDirectories _, .ok () | .write _ _, .ok () => .isTrue rfl
  | .makeDirectories _, .error _ | .write _ _, .error _ => .isFalse fun h => by cases h
  | .isDirectory _, _ | .read _, _ | .names _, _ | .print _, _ | .readLine, _ | .locate _, _
  | .execute _ _, _ | .workDir, _ | .home, _ | .elapsed, _ => .isTrue trivial

/-! ## Steps that write -/

namespace WriteStep

def take : WriteStep → Work Unit
  | .makeDirectories path => do let _ ← Job.makeDirectories path
  | .write path content => do let _ ← Job.write path content

def apply (files : FileTree) : WriteStep → Except FileError FileTree
  | .makeDirectories path => files.makeDirectories path
  | .write path content => files.write path content

/-- The names that lead to the file that a step writes. -/
def written? : WriteStep → Option (List String)
  | .makeDirectories _ => none
  | .write path _ => some path.parts

variable {m : Machine} {step : WriteStep} {failure : Option String} {c : Console}

theorem answer_of_change {change : Except FileError FileTree} (h : (m.change change).1 = .ok ()) :
    ∃ files, change = .ok files ∧ (m.change change).2 = { m with files } := by
  cases change with
  | error e => cases h
  | ok files => exact ⟨files, rfl, rfl⟩

theorem run_take (h : (step.take failure c).Answered Request.Granted m) :
    ∃ files, step.apply m.files = .ok files ∧
      (step.take failure c).run m = (.value (((), failure), c), { m with files }) := by
  cases step with
  | makeDirectories path =>
    obtain ⟨files, hfiles, hmachine⟩ := answer_of_change h.1
    exact ⟨files, hfiles, congrArg (Prod.mk _) hmachine⟩
  | write path content =>
    obtain ⟨files, hfiles, hmachine⟩ := answer_of_change h.1
    exact ⟨files, hfiles, congrArg (Prod.mk _) hmachine⟩

theorem run_forM {steps : List WriteStep}
    (h : ((steps.forM take).run failure c).Answered Request.Granted m) :
    ∃ files, steps.foldlM apply m.files = .ok files ∧
      ((steps.forM take).run failure c).run m = (.value (((), failure), c), { m with files }) := by
  induction steps generalizing m with
  | nil => exact ⟨m.files, rfl, rfl⟩
  | cons step steps ih =>
    obtain ⟨hstep, hrest⟩ := Job.answered_bind.mp h
    obtain ⟨files, hfiles, hrun⟩ := run_take hstep
    obtain ⟨files', hfiles', hrun'⟩ := ih (hrest _ _ hrun)
    refine ⟨files', ?_, (Job.run_bind_of_value hrun).trans hrun'⟩
    rw [List.foldlM_cons, hfiles]
    exact hfiles'

/-! ## Files -/

variable {steps : List WriteStep} {files files' : FileTree} {q : Path} {content : Bytes}

theorem read_of_apply (h : step.apply files = .ok files') (hq : files.read q = .ok content)
    (hne : step.written? ≠ some q.parts) :
    files'.read q = .ok content := by
  cases step with
  | makeDirectories path => exact FileTree.read_of_makeDirectories h hq
  | write path written => exact FileTree.read_of_write h hq fun heq => hne (congrArg some heq)

theorem of_foldlM_cons (h : (step :: steps).foldlM apply files = .ok files') :
    ∃ between, step.apply files = .ok between ∧ steps.foldlM apply between = .ok files' := by
  rw [List.foldlM_cons] at h
  cases hstep : step.apply files with
  | error e =>
    rw [hstep] at h
    cases h
  | ok between =>
    rw [hstep] at h
    exact ⟨between, rfl, h⟩

/-- Steps that do not write a file leave its content. -/
theorem read_of_foldlM (h : steps.foldlM apply files = .ok files') (hq : files.read q = .ok content)
    (hne : ∀ step ∈ steps, step.written? ≠ some q.parts) :
    files'.read q = .ok content := by
  induction steps generalizing files with
  | nil =>
    cases h
    exact hq
  | cons step steps ih =>
    rw [List.forall_mem_cons] at hne
    obtain ⟨between, hstep, hrest⟩ := of_foldlM_cons h
    exact ih hrest (read_of_apply hstep hq hne.1) hne.2

/-- A file that is written once has what was written. -/
theorem read_written (h : steps.foldlM apply files = .ok files')
    (hnodup : (steps.filterMap written?).Nodup) {path : Path} (hmem : .write path content ∈ steps) :
    files'.read path = .ok content := by
  induction steps generalizing files with
  | nil => cases hmem
  | cons step steps ih =>
    obtain ⟨between, hstep, hrest⟩ := of_foldlM_cons h
    rcases List.mem_cons.mp hmem with rfl | hmem
    · refine read_of_foldlM hrest (FileTree.read_write hstep) fun step' hstep' hwritten => ?_
      exact (List.nodup_cons.mp hnodup).1 (List.mem_filterMap.mpr ⟨step', hstep', hwritten⟩)
    · have hsublist : (steps.filterMap written?).Sublist ((step :: steps).filterMap written?) :=
        (List.sublist_cons_self _ _).filterMap _
      exact ih hrest (hnodup.sublist hsublist) hmem

end WriteStep

/-! ## Tasks that write -/

namespace Build

variable {b : Build}

theorem afterWrite_of_ok (step : WriteStep) (rest : Task Unit) {reply : Except FileError Unit}
    (h : reply = .ok ()) : afterWrite step rest reply = rest := by
  rw [h]
  rfl

/-- If the host grants every request, a task takes all steps of its script. -/
theorem follows_writeTask (steps : List WriteStep) :
    Task.Follows (fun _ => True) Request.Granted take (writeTask steps) steps () := by
  induction steps with
  | nil => exact .done ()
  | cons step steps ih =>
    refine .act (fun failure c m _ h => ?_) ih
    cases step with
    | makeDirectories path =>
      have hnext := afterWrite_of_ok (.makeDirectories path) (writeTask steps) h.1
      exact ⟨congrArg (fun next => (Job.Outcome.value ((next, failure), c), _)) hnext, h⟩
    | write path content =>
      have hnext := afterWrite_of_ok (.write path content) (writeTask steps) h.1
      exact ⟨congrArg (fun next => (Job.Outcome.value ((next, failure), c), _)) hnext, h⟩

/-! ## Sources -/

variable {files : FileTree} {source : Path} {c : Console} {outputs : List (Path × Bytes)}

/-- A source without flaws has a target module. -/
theorem compiles_of_not_flawed (h : ¬ Flawed files source) : ∃ content m,
    files.read source = .ok content ∧ Compilation.compile (Text.Utf8.decode content) =
      .ok (.ok m) := by
  cases hread : files.read source with
  | error e => exact (h (.inl ⟨e, hread⟩)).elim
  | ok content =>
    obtain ⟨c, -, hcases⟩ := Compilation.compile_cases (Text.Utf8.decode content)
    rcases hcases with ⟨-, m, -, hcompile⟩ | ⟨-, hcompile⟩
    · exact ⟨content, m, rfl, hcompile⟩
    · exact (h (.inr ⟨content, _, hread, hcompile⟩)).elim

theorem flawed_iff (b : Build) : Flawed files source ↔
    b.diagnosticsOf files source ≠ [] ∨ b.openFailure? files source ≠ none := by
  constructor
  · intro h
    by_cases hopen : b.openFailure? files source = none
    · obtain ⟨_, _, _, hnotice⟩ := h.told hopen
      exact .inl (List.ne_nil_of_mem hnotice)
    · exact .inr hopen
  · intro h
    by_contra hfine
    obtain ⟨content, m, hread, hcompile⟩ := compiles_of_not_flawed hfine
    rcases h with h | h
    · apply h
      rw [diagnosticsOf, hread]
      dsimp only
      rw [hcompile]
    · apply h
      rw [openFailure?, hread]

theorem generationTask_examine (print : Llvm.Module → Bytes) {content : Bytes} {m : Llvm.Module}
    (hread : files.read source = .ok content)
    (hcompile : Compilation.compile (Text.Utf8.decode content) = .ok (.ok m)) :
    b.generationTask print (b.examine source (files.read source)) =
      writeTask (writeSteps (b.outputPath source) (print m)) := by
  obtain ⟨c, hc, hcases⟩ := Compilation.compile_cases (Text.Utf8.decode content)
  have hbytes : Compilation.ofBytes content = .ok c := hc
  rcases hcases with ⟨-, m', hm', hcompile'⟩ | ⟨-, hcompile'⟩
  · cases hcompile'.symm.trans hcompile
    simp [hread, examine, hbytes, generationTask, hm']
  · cases hcompile'.symm.trans hcompile

/-! ## Outputs -/

/-- No conflict is told if the outputs are different. -/
theorem conflicts_eq_nil_iff (b : Build) (before sources : List Path) :
    b.conflicts before sources = [] ↔
      (∀ source ∈ sources, ∀ owner ∈ before, b.outputPath owner ≠ b.outputPath source) ∧
        (sources.map b.outputPath).Nodup := by
  induction sources generalizing before with
  | nil => simp [conflicts]
  | cons source sources ih =>
    rw [conflicts]
    dsimp only
    split
    · rename_i owner hfind
      have hsame : b.outputPath owner = b.outputPath source := by simpa using List.find?_some hfind
      refine iff_of_false (List.cons_ne_nil _ _) fun h => ?_
      exact h.1 source List.mem_cons_self owner (List.mem_of_find?_eq_some hfind) hsame
    · rename_i hnone
      have hbefore : ∀ owner ∈ before, b.outputPath owner ≠ b.outputPath source := by
        simpa using hnone
      rw [ih, List.map_cons, List.nodup_cons]
      constructor
      · rintro ⟨hrest, hnodup⟩
        refine ⟨List.forall_mem_cons.mpr ⟨hbefore, fun other hother owner howner =>
          hrest other hother owner (List.mem_append_left _ howner)⟩, fun hmem => ?_, hnodup⟩
        obtain ⟨other, hother, hsame⟩ := List.mem_map.mp hmem
        exact hrest other hother source (by simp) hsame.symm
      · rintro ⟨hall, hfresh, hnodup⟩
        refine ⟨fun other hother owner howner => ?_, hnodup⟩
        rcases List.mem_append.mp howner with howner | howner
        · exact hall other (List.mem_cons_of_mem _ hother) owner howner
        · rw [List.mem_singleton.mp howner]
          exact fun hsame => hfresh (List.mem_map.mpr ⟨other, hother, hsame.symm⟩)

theorem conflicts_count (b : Build) (before sources : List Path) :
    ∀ notice ∈ b.conflicts before sources, notice.Passing ∧ notice.counts = true := by
  induction sources generalizing before with
  | nil => simp [conflicts]
  | cons source sources ih =>
    rw [conflicts]
    dsimp only
    split
    · exact List.forall_mem_cons.mpr ⟨⟨trivial, rfl⟩, ih _⟩
    · exact ih _

theorem diagnostics_count (b : Build) (files : FileTree) :
    ∀ notice ∈ b.diagnostics files, notice.Passing ∧ notice.counts = true := by
  intro notice hnotice
  obtain ⟨source, -, hnotice⟩ := List.mem_flatMap.mp hnotice
  unfold diagnosticsOf at hnotice
  split at hnotice
  · split at hnotice
    · obtain ⟨d, -, rfl⟩ := List.mem_map.mp hnotice
      exact ⟨trivial, rfl⟩
    · cases hnotice
  · split at hnotice
    · rw [List.mem_singleton.mp hnotice]
      exact ⟨trivial, rfl⟩
    · cases hnotice

theorem nothing_told_iff (b : Build) (files : FileTree) :
    b.diagnostics files = [] ∧ b.openFailures files = [] ↔
      ∀ source ∈ b.sources, ¬ Flawed files source := by
  rw [diagnostics, openFailures, List.flatMap_eq_nil_iff, List.filterMap_eq_nil_iff]
  simp only [flawed_iff b, not_or, not_not]
  exact forall₂_and.symm

/-- The analysis counts an error exactly if a source has a flaw. -/
theorem run_analyzeUnder (hc : c.Steady) (m : Machine) (turns : List Nat) :
    ∃ c' m', (b.analyzeUnder turns c).run m =
        (.value (b.sources.map fun source => b.examine source (m.files.read source), c'), m') ∧
      m.Showed m' ∧ c'.Steady ∧
      (c'.errors = c.errors ↔ ∀ source ∈ b.sources, ¬ Flawed m.files source) := by
  obtain ⟨merged, hmerged, hreports⟩ := b.exists_reports m turns
  obtain ⟨htold, hfailures⟩ := told_of_interleaves hmerged
  have hcount : ∀ notice ∈ merged.filterMap AnalysisStep.notice?,
      notice.Passing ∧ notice.counts = true := fun notice hnotice =>
    b.diagnostics_count m.files notice (htold.mem_iff.mp hnotice)
  have hpassing : ∀ notice ∈ Notice.phaseBegins "Analyzing" ::
      (merged.filterMap AnalysisStep.notice? ++
        ((merged.findSome? AnalysisStep.message?).toList.map (.failure "") ++
          [.phaseEnds m.clock])), notice.Passing := by
    simp only [List.forall_mem_cons, List.forall_mem_append]
    have hbegins : (Console.padding? "Analyzing").isSome = true := by decide
    exact ⟨hbegins, fun notice hnotice => (hcount notice hnotice).1, by simp [Notice.Passing],
      trivial, by simp⟩
  obtain ⟨c', m', hrun, hshowed, hsteady, herrors⟩ := Run.run_tellAll hc hpassing m
  refine ⟨c', m', ?_, hshowed, hsteady, ?_⟩
  · rw [hreports c]
    exact Run.run_bind hrun
  · have hsum := List.countP_eq_length.mpr fun notice hnotice => (hcount notice hnotice).2
    have hnotices : merged.filterMap AnalysisStep.notice? = [] ↔ b.diagnostics m.files = [] := by
      rw [← List.length_eq_zero_iff, htold.length_eq, List.length_eq_zero_iff]
    have hmessages : merged.findSome? AnalysisStep.message? = none ↔
      b.openFailures m.files = [] := by
      rw [← List.head?_filterMap, List.head?_eq_none_iff, ← List.length_eq_zero_iff,
        hfailures.length_eq, List.length_eq_zero_iff]
    rw [herrors, ← b.nothing_told_iff m.files, ← hnotices, ← hmessages, List.countP_cons,
      List.countP_append, hsum, ← List.length_eq_zero_iff]
    cases merged.findSome? AnalysisStep.message? <;> simp [Notice.counts]

/-! ## Generation -/

theorem run_endPhase (hc : c.Steady) (m : Machine) :
    ∃ c' m', (endPhase none c).run m = (.value ((), c'), m') ∧ m.Showed m' ∧ c'.Steady ∧
      c'.errors = c.errors := by
  have hanswered := Job.answered_of_forall (fun _ _ => trivial) (endPhase none c) m
  have hpassing : (Notice.phaseEnds m.clock).Passing := trivial
  have hend := Run.run_tell_of_passing hc hpassing m
  rw [← Run.tellAll_singleton] at hend
  rw [(endPhase_agree none c m (.refl m) hanswered).1]
  exact hend

def writePlan (output : Path × Bytes) :
    Plan (fun _ => True) Request.Granted take Unit where
  task := writeTask (writeSteps output.1 output.2)
  script := writeSteps output.1 output.2
  value := ()
  follows := follows_writeTask _

theorem filterMap_written_writePlan (outputs : List (Path × Bytes)) :
    ((outputs.map writePlan).map (·.script)).flatten.filterMap written? =
      outputs.map (·.1.parts) := by
  induction outputs with
  | nil => rfl
  | cons output outputs ih =>
    rw [List.map_cons, List.map_cons, List.flatten_cons, List.filterMap_append, ih]
    rfl

theorem run_generation (hc : c.Steady) {m : Machine} {turns : List Nat}
    (h : (phase "Generating" turns ((outputs.map writePlan).map (·.task)) c).Answered
      Request.Granted m) :
    ∃ (merged : List WriteStep) (c' : Console) (m' : Machine),
      merged.Perm ((outputs.map writePlan).map (·.script)).flatten ∧
      merged.foldlM apply m.files = .ok m'.files ∧
      (phase "Generating" turns ((outputs.map writePlan).map (·.task)) c).run m =
        (.value ((outputs.map writePlan).map (·.value), c'), m') ∧ c'.errors = c.errors := by
  have htake (step : WriteStep) : Work.Stays (fun _ => True) step.take :=
    fun _ _ _ _ _ _ _ => trivial
  obtain ⟨merged, hmerged, hagree⟩ := Plan.runAll htake (outputs.map writePlan) turns
  obtain ⟨hphase, hanswered⟩ :=
    phase_agree (fun _ _ _ => trivial) htake hagree "Generating" c m trivial h
  have hbegins : (Notice.phaseBegins "Generating").Passing := by
    change (Console.padding? "Generating").isSome = true
    decide
  obtain ⟨c₁, m₁, hrun₁, hshowed₁, hsteady₁, herrors₁⟩ := Run.run_tell_of_passing hc hbegins m
  obtain ⟨hwrites, -⟩ := Job.answered_bind.mp (Run.answered_bind hrun₁ hanswered)
  obtain ⟨files, hfiles, hrun₂⟩ := run_forM hwrites
  obtain ⟨c', m', hrun₃, hshowed, -, herrors⟩ := run_endPhase hsteady₁ { m₁ with files }
  refine ⟨merged, c', m', hmerged.perm, ?_, ?_, herrors.trans herrors₁⟩
  · rw [← hshowed₁.files, hfiles, hshowed.files]
  · rw [hphase, Run.run_bind hrun₁, Run.run_bind hrun₂, Run.run_bind hrun₃]
    rfl

theorem read_outputs {merged : List WriteStep} {files' : FileTree}
    (hmerged : merged.Perm ((outputs.map writePlan).map (·.script)).flatten)
    (hfiles : merged.foldlM apply files = .ok files')
    (hnodup : (outputs.map (·.1.parts)).Nodup) :
    (∀ output ∈ outputs, files'.read output.1 = .ok output.2) ∧
      ∀ path content, files.read path = .ok content → path.parts ∉ outputs.map (·.1.parts) →
        files'.read path = .ok content := by
  have hwritten := hmerged.filterMap written?
  rw [filterMap_written_writePlan] at hwritten
  constructor
  · intro output houtput
    refine read_written hfiles (hwritten.nodup_iff.mpr hnodup) (hmerged.mem_iff.mpr ?_)
    rw [List.map_map, List.mem_flatten]
    exact ⟨_, List.mem_map_of_mem houtput, List.mem_cons_of_mem _ List.mem_cons_self⟩
  · intro path content hread hnot
    refine read_of_foldlM hfiles hread fun step hstep hpath => hnot ?_
    exact hwritten.mem_iff.mp (List.mem_filterMap.mpr ⟨step, hstep, hpath⟩)

theorem exists_outputs (b : Build) (print : Llvm.Module → Bytes) {sources : List Path}
    (h : ∀ source ∈ sources, ¬ Flawed files source) :
    ∃ outputs : List (Path × Bytes), outputs.map (·.1) = sources.map b.outputPath ∧
      (sources.map fun source => b.generationTask print (b.examine source (files.read source))) =
        (outputs.map writePlan).map (·.task) ∧
      ∀ source ∈ sources, ∃ content target, files.read source = .ok content ∧
        Compilation.compile (Text.Utf8.decode content) = .ok (.ok target) ∧
        (b.outputPath source, print target) ∈ outputs := by
  induction sources with
  | nil => exact ⟨[], rfl, rfl, List.forall_mem_nil _⟩
  | cons source sources ih =>
    rw [List.forall_mem_cons] at h
    obtain ⟨content, target, hread, hcompile⟩ := compiles_of_not_flawed h.1
    obtain ⟨outputs, hpaths, htasks, houtputs⟩ := ih h.2
    refine ⟨(b.outputPath source, print target) :: outputs, ?_, ?_,
      List.forall_mem_cons.mpr ⟨?_, ?_⟩⟩
    · rw [List.map_cons, List.map_cons, hpaths]
    · rw [List.map_cons, List.map_cons, List.map_cons, htasks,
        generationTask_examine print hread hcompile]
      rfl
    · exact ⟨content, target, hread, hcompile, List.mem_cons_self⟩
    · intro other hother
      obtain ⟨content', target', hread', hcompile', hmem⟩ := houtputs other hother
      exact ⟨content', target', hread', hcompile', List.mem_cons_of_mem _ hmem⟩

theorem nodup_parts (h : b.outputPaths.Nodup) : (b.outputPaths.map (·.parts)).Nodup := by
  refine List.pairwise_map.mpr (h.imp_of_mem fun {p q} hp hq hne hparts => hne ?_)
  obtain ⟨source, -, rfl⟩ := List.mem_map.mp hp
  obtain ⟨other, -, rfl⟩ := List.mem_map.mp hq
  exact congrArg (Path.mk b.outputDir.absolute) hparts

/-! ## Builds -/

section

variable {α : Type} (x : Run (Option α))

theorem gate_of_errors (h : c.errors ≠ 0) :
    (do if ← Run.anyErrors then return none
        x : Run (Option α)) c = pure (none, c) := by
  have herrors : c.anyErrors = true := bne_iff_ne.mpr h
  change (if c.anyErrors = true then pure none else x : Run (Option α)) c = _
  rw [if_pos herrors]
  rfl

theorem gate_of_no_errors (h : c.errors = 0) :
    (do if ← Run.anyErrors then return none
        x : Run (Option α)) c = x c := by
  have herrors : ¬ c.anyErrors = true := fun herrors => bne_iff_ne.mp herrors h
  change (if c.anyErrors = true then pure none else x : Run (Option α)) c = _
  rw [if_neg herrors]

end

section

variable (print : Llvm.Module → Bytes) (hc : c.Steady) (hfresh : c.errors = 0)

include hc hfresh

/-- A build with a flaw writes nothing. -/
theorem run_compile_of_flaw (m : Machine) (schedule : Schedule)
    (h : (∃ source ∈ b.sources, Flawed m.files source) ∨ ¬ b.outputPaths.Nodup) :
    ∃ c' m', (b.compileUnder print schedule c).run m = (.value (none, c'), m') ∧
      m'.files = m.files ∧
      c'.errors ≠ 0 := by
  obtain ⟨c₁, m₁, hrun₁, hshowed₁, hsteady₁, hfine⟩ := run_analyzeUnder hc m schedule.analyzing
  rw [compileUnder]
  by_cases herrors₁ : c₁.errors = 0
  · have hconflict : b.conflicts [] b.sources ≠ [] := by
      intro hnil
      rcases h with ⟨source, hsource, hflawed⟩ | hsame
      · exact hfine.mp (herrors₁.trans hfresh.symm) source hsource hflawed
      · exact hsame ((conflicts_eq_nil_iff b [] b.sources).mp hnil).2
    have hcount := b.conflicts_count [] b.sources
    obtain ⟨c', m', hrun₂, hshowed₂, -, herrors₂⟩ :=
      Run.run_tellAll hsteady₁ (fun notice hnotice => (hcount notice hnotice).1) m₁
    have herrors : c'.errors ≠ 0 := by
      have hall := List.countP_eq_length.mpr fun notice hnotice => (hcount notice hnotice).2
      rw [herrors₂, herrors₁, hall, Nat.zero_add]
      exact mt List.eq_nil_of_length_eq_zero hconflict
    refine ⟨c', m', ?_, hshowed₂.files.trans hshowed₁.files, herrors⟩
    rw [Run.run_bind hrun₁, gate_of_no_errors _ herrors₁, Run.run_bind hrun₂,
      gate_of_errors _ herrors]
    rfl
  · refine ⟨c₁, m₁, ?_, hshowed₁.files, herrors₁⟩
    rw [Run.run_bind hrun₁, gate_of_errors _ herrors₁]
    rfl

/-- A build without flaws writes every output. -/
theorem run_compile_of_fine {m : Machine} {schedule : Schedule}
    (hprofile : b.profile.output = .text)
    (hfine : ∀ source ∈ b.sources, ¬ Flawed m.files source) (hnodup : b.outputPaths.Nodup)
    (hgranted : (b.compileUnder print schedule c).Answered Request.Granted m) :
    ∃ c' m', (b.compileUnder print schedule c).run m = (.value (some b.outputPaths, c'), m') ∧
      c'.errors = 0 ∧
      (∀ source ∈ b.sources, ∃ content target, m.files.read source = .ok content ∧
        Compilation.compile (Text.Utf8.decode content) = .ok (.ok target) ∧
        m'.files.read (b.outputPath source) = .ok (print target)) ∧
      ∀ path content, m.files.read path = .ok content →
        path.parts ∉ b.outputPaths.map (·.parts) → m'.files.read path = .ok content := by
  obtain ⟨c₁, m₁, hrun₁, hshowed₁, hsteady₁, hiff⟩ := run_analyzeUnder hc m schedule.analyzing
  have herrors₁ : c₁.errors = 0 := (hiff.mpr hfine).trans hfresh
  obtain ⟨outputs, hpaths, htasks, houtputs⟩ := b.exists_outputs print hfine
  have hconflicts : b.conflicts [] b.sources = [] :=
    (conflicts_eq_nil_iff b [] b.sources).mpr ⟨fun _ _ => List.forall_mem_nil _, hnodup⟩
  have hparts : outputs.map (·.1.parts) = b.outputPaths.map (·.parts) := by
    rw [outputPaths, ← hpaths, List.map_map]
    rfl
  -- what is left when nothing wrong was found
  rw [compileUnder, hconflicts] at hgranted ⊢
  have hgranted := Run.answered_bind hrun₁ hgranted
  rw [Run.run_bind hrun₁]
  rw [gate_of_no_errors _ herrors₁, Run.tellAll, pure_bind, gate_of_no_errors _ herrors₁,
    List.map_map, Function.comp_def, htasks] at hgranted ⊢
  obtain ⟨merged, c', m', hmerged, hfiles, hrun₂, herrors₂⟩ :=
    run_generation hsteady₁ (Job.answered_bind.mp hgranted).1
  rw [hshowed₁.files] at hfiles
  obtain ⟨hwritten, hkept⟩ := read_outputs hmerged hfiles (hparts ▸ nodup_parts hnodup)
  refine ⟨c', m', ?_, herrors₂.trans herrors₁, fun source hsource => ?_, hparts ▸ hkept⟩
  · rw [Run.run_bind hrun₂, gate_of_no_errors _ (herrors₂.trans herrors₁), hprofile]
    rfl
  · obtain ⟨content, target, hread, hcompile, hmem⟩ := houtputs source hsource
    exact ⟨content, target, hread, hcompile, hwritten _ hmem⟩

end

/-- A build is all or nothing, whatever the schedule is. If something is wrong with a source, or if
two sources have the same output, it fails and no file changes. Otherwise, if the host lets it
write, it returns the outputs in the order of the sources, and each of them holds what `print` makes
of the target module of its own source. -/
theorem compile_all_or_nothing (print : Llvm.Module → Bytes) (b : Build)
    (hprofile : b.profile.output = .text) (schedule : Schedule) {c : Console}
    (hc : c.Steady) (hfresh : c.errors = 0) (m : Machine) :
    ((∃ source ∈ b.sources, Flawed m.files source) ∨ ¬ b.outputPaths.Nodup →
      ∃ c' m', (b.compileUnder print schedule c).run m = (.value (none, c'), m') ∧
        m'.files = m.files ∧ c'.errors ≠ 0) ∧
    ((∀ source ∈ b.sources, ¬ Flawed m.files source) → b.outputPaths.Nodup →
      (b.compileUnder print schedule c).Answered Request.Granted m →
      ∃ c' m', (b.compileUnder print schedule c).run m =
        (.value (some (b.sources.map b.outputPath), c'), m') ∧ c'.errors = 0 ∧
        (∀ source ∈ b.sources, ∃ content target, m.files.read source = .ok content ∧
          Compilation.compile (Text.Utf8.decode content) = .ok (.ok target) ∧
          m'.files.read (b.outputPath source) = .ok (print target)) ∧
        ∀ path content, m.files.read path = .ok content →
          path.parts ∉ b.outputPaths.map (·.parts) → m'.files.read path = .ok content) :=
  ⟨run_compile_of_flaw print hc hfresh m schedule, run_compile_of_fine print hc hfresh hprofile⟩

/-- A build of two sources in different directories. -/
def pairBuild : Build where
  root := ⟨true, []⟩
  sources := [⟨true, ["a.beb"]⟩, ⟨true, ["sub", "b.beb"]⟩]
  outputDir := ⟨true, ["out"]⟩
  profile := .default

def pairMachine : Machine := .holding ⟨[
  (["a.beb"], .file (Text.Utf8.encode "MODULE A; END A.") false),
  (["sub"], .directory),
  (["sub", "b.beb"], .file (Text.Utf8.encode "MODULE B; END B.") false)]⟩

/-- Two sources that are fine are built with their steps in turn. Where two sources are missing,
nothing is written. -/
theorem pair_built_and_mixed_refused :
    (∃ c' m', (pairBuild.compileUnder contentOf ⟨[1, 0, 1], [1, 0, 1, 0], []⟩ .initial).run
          pairMachine =
        (.value (some [⟨true, ["out", "a.ll"]⟩, ⟨true, ["out", "sub", "b.ll"]⟩], c'), m') ∧
      c'.errors = 0 ∧
      ∃ content target, pairMachine.files.read ⟨true, ["sub", "b.beb"]⟩ = .ok content ∧
        Compilation.compile (Text.Utf8.decode content) = .ok (.ok target) ∧
        m'.files.read ⟨true, ["out", "sub", "b.ll"]⟩ = .ok (contentOf target)) ∧
    ∃ c' m', (mixedBuild.compileUnder contentOf ⟨[3, 1, 0, 2], [], []⟩ .initial).run mixedMachine =
      (.value (none, c'), m') ∧ m'.files = mixedMachine.files ∧ c'.errors ≠ 0 := by
  have hsteady : Console.initial.Steady := fun h => by cases h
  constructor
  · have hfine : ∀ source ∈ pairBuild.sources, ¬ Flawed pairMachine.files source := by
      decide +kernel
    have hgranted : (pairBuild.compileUnder contentOf ⟨[1, 0, 1], [1, 0, 1, 0], []⟩
      .initial).Answered Request.Granted pairMachine := by decide +kernel
    obtain ⟨c', m', hrun, herrors, houtputs, -⟩ := (compile_all_or_nothing contentOf pairBuild rfl
      ⟨[1, 0, 1], [1, 0, 1, 0], []⟩ hsteady rfl pairMachine).2 hfine (by decide +kernel) hgranted
    have hpaths : pairBuild.sources.map pairBuild.outputPath =
      [⟨true, ["out", "a.ll"]⟩, ⟨true, ["out", "sub", "b.ll"]⟩] := by decide +kernel
    have hpath : pairBuild.outputPath ⟨true, ["sub", "b.beb"]⟩ =
      ⟨true, ["out", "sub", "b.ll"]⟩ := by
      decide +kernel
    rw [hpaths] at hrun
    have houtput := houtputs ⟨true, ["sub", "b.beb"]⟩ (by decide)
    rw [hpath] at houtput
    exact ⟨c', m', hrun, herrors, houtput⟩
  · have hflawed : ∃ source ∈ mixedBuild.sources, Flawed mixedMachine.files source := by
      decide +kernel
    exact (compile_all_or_nothing contentOf mixedBuild rfl ⟨[3, 1, 0, 2], [], []⟩ hsteady rfl
      mixedMachine).1 (.inl hflawed)

end Build

end Oberlet
