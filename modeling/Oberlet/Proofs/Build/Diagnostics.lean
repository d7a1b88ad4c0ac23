import Oberlet.Build.Run
import Oberlet.Proofs.Build.Interleaving
import Oberlet.Proofs.Compilation
import Oberlet.Proofs.Console.Telling

/-!
# What the analysis of a build tells

The sources of a build are analysed side by side.
-/

namespace Oberlet

open AnalysisStep

/-! ## Steps of an analysis -/

namespace AnalysisStep

def take : AnalysisStep → Work Unit
  | .tell notice => do Run.tell notice
  | .fail message => Work.fail message

def notice? : AnalysisStep → Option Notice
  | .tell notice => some notice
  | .fail _ => none

def message? : AnalysisStep → Option String
  | .tell _ => none
  | .fail message => some message

theorem stays_take {P : Machine → Prop} (hP : ∀ m output, P m → P { m with output })
    (step : AnalysisStep) : Work.Stays P step.take := by
  cases step with
  | tell notice => exact fun failure c => (Run.stays_tell hP notice c).bind fun r => .pure _
  | fail message => exact fun failure c => .pure _

theorem forM_take (steps : List AnalysisStep) (failure : Option String) :
    (steps.forM take).run failure = (do
      Run.tellAll (steps.filterMap notice?)
      return ((), failure.or (steps.findSome? message?)) : Run _) := by
  induction steps generalizing failure with
  | nil => simp [Run.tellAll]
  | cons step steps ih =>
    simp only [List.forM_eq_forM] at ih
    cases step with
    | tell notice => simp [take, notice?, message?, Run.tellAll, ih, List.findSome?_cons]
    | fail message =>
      simp [take, notice?, message?, Work.fail, ih, List.findSome?_cons, List.filterMap_cons]

end AnalysisStep

namespace Build

variable {b : Build}

/-! ## What there is to tell -/

/-- What is wrong with a source, if it can be opened. -/
def diagnosticsOf (b : Build) (files : FileTree) (source : Path) : List Notice :=
  match files.read source with
  | .ok content => match Compilation.compile (Text.Utf8.decode content) with
    | .ok (.error errors) =>
      errors.map fun d => .error (some content) (b.shownPath source) d.span d.message
    | _ => []
  | .error e =>
    if e.action = .reading then
      [.error none (b.shownPath source) none s!"failed to read source: {e.text}"]
    else []

def openFailure? (b : Build) (files : FileTree) (source : Path) : Option String :=
  match files.read source with
  | .ok _ => none
  | .error e =>
    if e.action = .reading then none
    else some s!"failed to open source file `{b.shownPath source}`: {e.text}"

/-- Something is wrong with a source: it cannot be read, or there are errors in it. -/
def Flawed (files : FileTree) (source : Path) : Prop :=
  (∃ e, files.read source = .error e) ∨ ∃ content errors, files.read source = .ok content ∧
    Compilation.compile (Text.Utf8.decode content) = .ok (.error errors)

instance (files : FileTree) (source : Path) : Decidable (Flawed files source) :=
  match hread : files.read source with
  | .error e => .isTrue (.inl ⟨e, hread⟩)
  | .ok content => match hcompile : Compilation.compile (Text.Utf8.decode content) with
    | .ok (.error errors) => .isTrue (.inr ⟨content, errors, hread, hcompile⟩)
    | .ok (.ok m) => .isFalse (by simp [Flawed, hread, hcompile])
    | .error f => .isFalse (by simp [Flawed, hread, hcompile])

def diagnostics (b : Build) (files : FileTree) : List Notice :=
  b.sources.flatMap (b.diagnosticsOf files)

def openFailures (b : Build) (files : FileTree) : List String :=
  b.sources.filterMap (b.openFailure? files)

/-- A source that cannot be opened has a failure, any other its diagnostics. -/
theorem steps_examine (b : Build) (files : FileTree) (source : Path) :
    (b.examine source (files.read source)).steps =
      (b.diagnosticsOf files source).map .tell ++
        (b.openFailure? files source).toList.map .fail := by
  unfold examine diagnosticsOf openFailure?
  cases hread : files.read source with
  | error e =>
    have hmessage : (Diagnostic.mk (.unreadable e.text) none none).message =
      s!"failed to read source: {e.text}" := rfl
    by_cases haction : e.action = .reading
    · simp [haction, tellErrors, Compilation.ofReadError, Compilation.errors, Notice.ofDiagnostic,
        hmessage]
    · simp [haction]
  | ok content =>
    obtain ⟨c, hc, hcases⟩ := Compilation.compile_cases (Text.Utf8.decode content)
    have hbytes : Compilation.ofBytes content = .ok c := hc
    rcases hcases with ⟨herrors, m, -, hcompile⟩ | ⟨-, hcompile⟩
    · simp [hbytes, hcompile, tellErrors, herrors]
    · simp [hbytes, hcompile, tellErrors, Notice.ofDiagnostic]

variable {source : Path} {G : (r : Request) → r.Reply → Prop} {m₀ : Machine} {P : Machine → Prop}
  {turns : List Nat} {α : Type} {m : Machine} {merged : List AnalysisStep}

/-- What is wrong with a source that can be opened is told. -/
theorem Flawed.told {files : FileTree} (h : Flawed files source)
    (hopen : b.openFailure? files source = none) : ∃ content span message,
      .error content (b.shownPath source) span message ∈ b.diagnosticsOf files source := by
  unfold openFailure? at hopen
  unfold diagnosticsOf
  rcases h with ⟨e, hread⟩ | ⟨content, errors, hread, hcompile⟩
  · rw [hread] at hopen ⊢
    dsimp only at hopen ⊢
    by_cases haction : e.action = .reading
    · exact ⟨none, none, _, by rw [if_pos haction]; exact List.mem_singleton.mpr rfl⟩
    · rw [if_neg haction] at hopen
      cases hopen
  · rw [hread]
    dsimp only
    rw [hcompile]
    obtain ⟨d, hd⟩ := List.exists_mem_of_ne_nil errors (Compilation.errors_ne_nil hcompile)
    exact ⟨some content, d.span, d.message, List.mem_map.mpr ⟨d, hd, rfl⟩⟩

/-! ## Phases -/

theorem endPhase_agree (failure : Option String) (c : Console) :
    Job.Agree m₀.Showed G (endPhase failure c)
      (Run.tellAll (failure.toList.map (.failure "") ++ [.phaseEnds m₀.clock]) c) := by
  have hend (c : Console) : Job.Agree m₀.Showed G (endPhase none c)
      (Run.tellAll [.phaseEnds m₀.clock] c) := by
    intro m hm hanswered
    rw [← hm.clock, Run.tellAll_singleton]
    exact ⟨rfl, hanswered.2⟩
  cases failure with
  | none => exact hend c
  | some message =>
    exact (Job.Agree.refl _).bind (Run.stays_tell (fun m output hm => hm.more output) _ _)
      fun r => hend r.2

/-- A phase takes the actions of its tasks in the order of the schedule. -/
theorem phase_agree {σ : Type} (hP : ∀ m output, P m → P { m with output }) {take : σ → Work Unit}
    (htake : ∀ a, Work.Stays P (take a)) {tasks : List (Task α)} {merged : List σ} {values : List α}
    (h : Work.Agree P G (Task.runAll turns tasks) (do merged.forM take; return values))
    (name : String) (c : Console) : Job.Agree P G (phase name turns tasks c) ((do
      Run.tell (.phaseBegins name)
      let r ← (merged.forM take).run none
      endPhase r.2
      return values : Run _) c) := by
  refine (Job.Agree.refl _).bind (Run.stays_tell hP _ _) fun r => ?_
  have hstays : Work.Stays P (do merged.forM take; return values) :=
    (Work.Stays.forM htake _).bind fun _ => .pure _
  have hrest := (h none r.2).bind (hstays none r.2)
    fun r => .refl ((do endPhase r.1.2; return r.1.1 : Run (List α)) r.2)
  have hassoc : ((do merged.forM take; return values : Work _) none r.2 >>= fun r =>
      (do endPhase r.1.2; return r.1.1 : Run (List α)) r.2) =
      (merged.forM take none r.2 >>= fun r => (do endPhase r.1.2; return values : Run _) r.2) :=
    bind_assoc _ _ _
  rw [hassoc] at hrest
  exact hrest

theorem told_phase_agree (name : String) (told : List Notice) (failure : Option String) (value : α)
    (c : Console) : Job.Agree m₀.Showed G
      ((do Run.tell (.phaseBegins name); Run.tellAll told; endPhase failure; return value :
        Run α) c)
      ((do
        Run.tellAll (.phaseBegins name :: (told ++
          (failure.toList.map (.failure "") ++ [.phaseEnds m₀.clock])))
        return value : Run α) c) := by
  have hshowed (m : Machine) (output : String) (hm : m₀.Showed m) : m₀.Showed { m with output } :=
    hm.more output
  rw [Run.tellAll, Run.tellAll_append]
  simp only [bind_assoc]
  refine (Job.Agree.refl _).bind (Run.stays_tell hshowed _ _) fun r => ?_
  refine (Job.Agree.refl _).bind (Run.stays_tellAll hshowed _ _) fun r => ?_
  exact (endPhase_agree _ _).bind (Run.stays_tellAll hshowed _ _) fun r => .refl _

/-- Under a schedule, the analysis tells that it begins, then notices and a failure, if there is
one, and then that it ends. -/
def Reports (b : Build) (turns : List Nat) (m : Machine) (told : List Notice)
    (failure : Option String) : Prop :=
  ∀ c, (b.analyzeUnder turns c).run m = ((do
    Run.tellAll (.phaseBegins "Analyzing" :: (told ++
      (failure.toList.map (.failure "") ++ [.phaseEnds m.clock])))
    return b.sources.map fun source => b.examine source (m.files.read source) : Run _) c).run m

theorem follows_steps (steps : List AnalysisStep) (value : α) :
    Task.Follows P G take (steps.foldr before (.done value))
      steps value := by
  induction steps with
  | nil => exact .done value
  | cons step steps ih =>
    cases step with
    | tell notice => exact .act (.refl _) ih
    | fail message => exact .act (.refl _) ih

/-- The analysis of a source on a machine, with its steps and what is known in the end. -/
def analysisPlan (b : Build) (m₀ : Machine) (source : Path) :
    Plan m₀.Showed (fun _ _ => True) take Examined where
  task := b.analysisTask source
  script := (b.examine source (m₀.files.read source)).steps
  value := b.examine source (m₀.files.read source)
  follows := by
    refine .quiet (fun failure c m hm _ => ?_) (follows_steps _ _)
    rw [← hm.files]
    exact ⟨rfl, trivial⟩

theorem reports_of_agree
    (h : Work.Agree m.Showed (fun _ _ => True) (Task.runAll turns (b.sources.map b.analysisTask))
      (do merged.forM take
          return b.sources.map fun source => b.examine source (m.files.read source))) :
    b.Reports turns m (merged.filterMap notice?)
      (merged.findSome? message?) := by
  intro c
  have hshowed (m' : Machine) (output : String) (hm' : m.Showed m') : m.Showed { m' with output } :=
    hm'.more output
  have hphase := phase_agree hshowed (stays_take hshowed) h "Analyzing" c
  rw [forM_take] at hphase
  simp only [bind_assoc, pure_bind, Option.none_or] at hphase
  have hanswered := Job.answered_of_forall (fun _ _ => trivial) (b.analyzeUnder turns c) m
  exact (hphase.trans (told_phase_agree _ _ _ _ c) m (.refl m) hanswered).1

/-! ## Schedules -/

def analysisSteps (b : Build) (m : Machine) : List (List AnalysisStep) :=
  (b.sources.map (b.analysisPlan m)).map (·.script)

theorem filterMap_steps (told : List Notice) (failure : Option String) :
    (told.map .tell ++ failure.toList.map .fail : List AnalysisStep).filterMap
        notice? = told ∧
      (told.map .tell ++ failure.toList.map .fail : List AnalysisStep).filterMap
        message? = failure.toList := by
  cases failure <;> simp [Function.comp_def, notice?, message?]

theorem filterMap_flatten_steps (b : Build) (m : Machine) :
    (b.analysisSteps m).flatten.filterMap notice? = b.diagnostics m.files ∧
      (b.analysisSteps m).flatten.filterMap message? = b.openFailures m.files := by
  unfold analysisSteps diagnostics openFailures
  induction b.sources with
  | nil => exact ⟨rfl, rfl⟩
  | cons source sources ih =>
    have hsteps : (b.analysisPlan m source).script = _ := b.steps_examine m.files source
    have hfirst := filterMap_steps (b.diagnosticsOf m.files source) (b.openFailure? m.files source)
    rw [← hsteps] at hfirst
    rw [List.map_cons, List.map_cons, List.flatten_cons, List.filterMap_append,
      List.filterMap_append, hfirst.1, hfirst.2, ih.1, ih.2, List.flatMap_cons]
    cases hfailure : b.openFailure? m.files source <;> simp [hfailure]

/-- Under every schedule the same is told, in some order. -/
theorem told_of_interleaves (h : Interleaves (b.analysisSteps m) merged) :
    (merged.filterMap notice?).Perm (b.diagnostics m.files) ∧
      (merged.filterMap message?).Perm (b.openFailures m.files) := by
  obtain ⟨hnotices, hmessages⟩ := b.filterMap_flatten_steps m
  exact ⟨hnotices ▸ h.perm.filterMap _, hmessages ▸ h.perm.filterMap _⟩

theorem task_analysisPlan (b : Build) (m : Machine) :
    (b.sources.map (b.analysisPlan m)).map (·.task) = b.sources.map b.analysisTask :=
  List.map_map

theorem value_analysisPlan (b : Build) (m : Machine) :
    (b.sources.map (b.analysisPlan m)).map (·.value) =
      b.sources.map fun source => b.examine source (m.files.read source) :=
  List.map_map

theorem exists_reports (b : Build) (m : Machine) (turns : List Nat) :
    ∃ merged, Interleaves (b.analysisSteps m) merged ∧
      b.Reports turns m (merged.filterMap notice?)
        (merged.findSome? message?) := by
  have htake := stays_take fun m' output (hm' : m.Showed m') => hm'.more output
  obtain ⟨merged, hmerged, hagree⟩ := Plan.runAll htake (b.sources.map (b.analysisPlan m)) turns
  rw [task_analysisPlan, value_analysisPlan] at hagree
  exact ⟨merged, hmerged, reports_of_agree hagree⟩

/-- Every interleaving has a schedule. -/
theorem exists_turns (h : Interleaves (b.analysisSteps m) merged) :
    ∃ turns, b.Reports turns m (merged.filterMap notice?)
      (merged.findSome? message?) := by
  have htake := stays_take fun m' output (hm' : m.Showed m') => hm'.more output
  obtain ⟨turns, hagree⟩ := Plan.exists_turns htake (b.sources.map (b.analysisPlan m)) h
  rw [task_analysisPlan, value_analysisPlan] at hagree
  exact ⟨turns, reports_of_agree hagree⟩

theorem script_of_openFailure {message : String}
    (h : b.openFailure? m.files source = some message) :
    (b.analysisPlan m source).script = [.fail message] := by
  have hnone : b.diagnosticsOf m.files source = [] := by
    unfold openFailure? at h
    unfold diagnosticsOf
    split at h
    · cases h
    · split at h
      · cases h
      · rename_i haction
        exact if_neg haction
  change (b.examine source (m.files.read source)).steps = _
  rw [steps_examine, hnone, h]
  rfl

/-- Under every schedule, the analysis tells all that is wrong with the sources that can be opened,
in some order. If there are sources that cannot be opened, it tells the failure to open one of them:
if there are several, any of them, depending on the schedule. -/
theorem diagnostics_under_schedules (b : Build) (m : Machine) :
    (∀ turns, ∃ told failure, b.Reports turns m told failure ∧ told.Perm (b.diagnostics m.files) ∧
      (∀ source ∈ b.sources, Flawed m.files source → b.openFailure? m.files source = none →
        ∃ content span message, .error content (b.shownPath source) span message ∈ told) ∧
      (failure = none ↔ b.openFailures m.files = []) ∧
      (∀ message ∈ failure, message ∈ b.openFailures m.files) ∧
      ((b.openFailures m.files).length ≤ 1 → failure = (b.openFailures m.files).head?)) ∧
    ∀ message ∈ b.openFailures m.files, ∃ turns told, b.Reports turns m told (some message) ∧
      told.Perm (b.diagnostics m.files) := by
  constructor
  · intro turns
    obtain ⟨merged, hmerged, hreports⟩ := b.exists_reports m turns
    obtain ⟨htold, hfailures⟩ := told_of_interleaves hmerged
    refine ⟨_, _, hreports, htold, ?_, ?_⟩
    · intro source hsource hflawed hopen
      obtain ⟨content, span, message, hnotice⟩ := hflawed.told hopen
      exact ⟨content, span, message,
        htold.mem_iff.mpr (List.mem_flatMap.mpr ⟨source, hsource, hnotice⟩)⟩
    rw [← List.head?_filterMap]
    refine ⟨?_, fun message hmessage => hfailures.mem_iff.mp (List.mem_of_head? hmessage), ?_⟩
    · rw [List.head?_eq_none_iff, ← List.perm_nil, ← List.perm_nil]
      exact ⟨hfailures.symm.trans, hfailures.trans⟩
    · intro hlength
      cases hopen : b.openFailures m.files with
      | nil =>
        rw [hopen] at hfailures
        rw [hfailures.eq_nil]
      | cons message rest =>
        rw [hopen, List.length_cons] at hlength
        obtain rfl : rest = [] := List.eq_nil_of_length_eq_zero (by omega)
        rw [hopen] at hfailures
        rw [List.perm_singleton.mp hfailures]
  · intro message hmessage
    obtain ⟨source, hsource, hfailure⟩ := List.mem_filterMap.mp hmessage
    obtain ⟨i, hi⟩ := List.mem_iff_getElem?.mp hsource
    have hscript : (b.analysisSteps m)[i]? = some [.fail message] := by
      rw [analysisSteps, List.getElem?_map, List.getElem?_map, hi, ← script_of_openFailure hfailure]
      rfl
    have hmerged := Interleaves.step hscript (.flatten _)
    obtain ⟨turns, hreports⟩ := exists_turns hmerged
    exact ⟨turns, _, hreports, (told_of_interleaves hmerged).1⟩

/-- A build of four sources, of which one is fine. -/
def mixedBuild : Build where
  root := ⟨true, []⟩
  sources := [⟨true, ["fine.beb"]⟩, ⟨true, ["bad.beb"]⟩, ⟨true, ["gone.beb"]⟩, ⟨true, ["lost.beb"]⟩]
  outputDir := ⟨true, ["out"]⟩
  profile := .default

def mixedMachine : Machine := .holding ⟨[
  (["fine.beb"], .file (Text.Utf8.encode "MODULE M; END M.") false),
  (["bad.beb"], .file (Text.Utf8.encode "MODULE M; BEGIN x := 1 END M.") false)]⟩

/-- The error of one source is told, and the failure to open the last source can be told. -/
theorem mixed_sources_told :
    (∃ told failure, mixedBuild.Reports [3, 1, 0, 2] mixedMachine told failure ∧
      told.Perm (mixedBuild.diagnostics mixedMachine.files) ∧ failure ≠ none ∧
      ∃ content span message, Notice.error content "bad.beb" span message ∈ told) ∧
    ∃ turns told, mixedBuild.Reports turns mixedMachine told
      (some "failed to open source file `lost.beb`: open /lost.beb: no such file or directory") ∧
      told.Perm (mixedBuild.diagnostics mixedMachine.files) := by
  have hlost : "failed to open source file `lost.beb`: open /lost.beb: no such file or directory" ∈
    mixedBuild.openFailures mixedMachine.files := by decide +kernel
  have hbad : Flawed mixedMachine.files ⟨true, ["bad.beb"]⟩ := by decide +kernel
  obtain ⟨hall, hany⟩ := diagnostics_under_schedules mixedBuild mixedMachine
  obtain ⟨told, failure, hreports, htold, hflawed, hnone, -, -⟩ := hall [3, 1, 0, 2]
  refine ⟨⟨told, failure, hreports, htold, fun h => ?_, ?_⟩, hany _ hlost⟩
  · rw [hnone.mp h] at hlost
    cases hlost
  · exact hflawed ⟨true, ["bad.beb"]⟩ (by decide) hbad (by decide +kernel)

def missingBuild : Build where
  root := ⟨true, []⟩
  sources := [⟨true, ["a.beb"]⟩, ⟨true, ["b.beb"]⟩]
  outputDir := ⟨true, ["out"]⟩
  profile := .default

/-- If two sources are missing, only one of them is named, and not under every schedule the same. -/
theorem missing_sources_named_once :
    ((missingBuild.analyzeUnder [] .initial).run (.holding ⟨[]⟩)).2.output =
      "Analyzing...   \nFail: Analyzing   \n: error: failed to open source file `a.beb`: " ++
        "open /a.beb: no such file or directory\n\n" ∧
    ((missingBuild.analyzeUnder [1, 1] .initial).run (.holding ⟨[]⟩)).2.output =
      "Analyzing...   \nFail: Analyzing   \n: error: failed to open source file `b.beb`: " ++
        "open /b.beb: no such file or directory\n\n" := by
  constructor <;> decide +kernel

end Build

end Oberlet
