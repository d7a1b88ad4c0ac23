import Oberlet.Build.Task
import Oberlet.Proofs.Host.Job

/-!
# Tasks under a schedule

A task that is left alone takes actions in a certain order: those of its script.
-/

namespace Oberlet

/-! ## Interleavings -/

/-- A list is made up of several others: again and again, the next element of one of them is taken,
no matter which. -/
inductive Interleaves {σ : Type} : List (List σ) → List σ → Prop
  | done {scripts : List (List σ)} : (∀ script ∈ scripts, script = []) → Interleaves scripts []
  | step {scripts : List (List σ)} {i : Nat} {a : σ} {rest merged : List σ} :
      scripts[i]? = some (a :: rest) → Interleaves (scripts.set i rest) merged →
      Interleaves scripts (a :: merged)

namespace Interleaves

variable {σ : Type} {scripts : List (List σ)} {merged : List σ}

theorem cons_nil (h : Interleaves scripts merged) : Interleaves ([] :: scripts) merged := by
  induction h with
  | done h => exact .done (List.forall_mem_cons.mpr ⟨rfl, h⟩)
  | @step scripts i a rest merged hi _ ih => exact .step (i := i + 1) hi ih

theorem flatten (scripts : List (List σ)) : Interleaves scripts scripts.flatten := by
  induction scripts with
  | nil => exact .done (by simp)
  | cons script rest ih =>
    induction script with
    | nil => exact ih.cons_nil
    | cons a script ih' => exact .step (i := 0) rfl ih'

theorem perm_flatten_set {i : Nat} {a : σ} {rest : List σ} (h : scripts[i]? = some (a :: rest)) :
    (a :: (scripts.set i rest).flatten).Perm scripts.flatten := by
  induction scripts generalizing i with
  | nil => cases h
  | cons script scripts ih =>
    cases i with
    | zero =>
      cases h
      exact .refl _
    | succ i => exact List.perm_middle.symm.trans ((ih h).append_left script)

/-- An interleaving takes every action once. -/
theorem perm (h : Interleaves scripts merged) : merged.Perm scripts.flatten := by
  induction h with
  | done h => rw [List.flatten_eq_nil_iff.mpr h]
  | step hi _ ih => exact (ih.cons _).trans (perm_flatten_set hi)

end Interleaves

/-! ## Works -/

namespace Work

/-- Two works do the same, whatever failed before and whatever state the console is in. -/
def Agree {α : Type} (P : Machine → Prop) (G : (r : Request) → r.Reply → Prop)
    (x y : Work α) : Prop :=
  ∀ failure c, Job.Agree P G (x failure c) (y failure c)

def Stays {α : Type} (P : Machine → Prop) (x : Work α) : Prop :=
  ∀ failure c, Job.Stays P (x failure c)

variable {α β : Type} {P : Machine → Prop} {G : (r : Request) → r.Reply → Prop}

theorem Agree.refl (x : Work α) : Agree P G x x := fun _ _ => .refl _

variable {x y : Work α} {f : α → Work β}

theorem Agree.trans {z : Work α} (h : Agree P G x y) (h' : Agree P G y z) : Agree P G x z :=
  fun failure c => (h failure c).trans (h' failure c)

theorem Agree.bind {g : α → Work β} (h : Agree P G x y) (hy : Stays P y)
    (hnext : ∀ a, Agree P G (f a) (g a)) : Agree P G (x >>= f) (y >>= g) :=
  fun failure c => (h failure c).bind (hy failure c) fun r => hnext r.1.1 r.1.2 r.2

theorem Stays.pure (a : α) : Stays P (Pure.pure a : Work α) := fun _ _ => .pure _

theorem Stays.bind (h : Stays P x) (hnext : ∀ a, Stays P (f a)) : Stays P (x >>= f) :=
  fun failure c => (h failure c).bind fun r => hnext r.1.1 r.1.2 r.2

theorem Agree.bind_pure {a : α} (h : Agree P G x (pure a)) : Agree P G (x >>= f) (f a) :=
  h.bind (.pure a) fun _ => .refl _

theorem Agree.bind_return {act : Work Unit} {a : α} (h : Agree P G x (do act; return a))
    (hact : Stays P act) : Agree P G (x >>= f) (do act; f a) := by
  simpa using h.bind (hact.bind fun _ => .pure a) fun b => .refl (f b)

theorem Stays.forM {σ : Type} {take : σ → Work Unit} (h : ∀ a, Stays P (take a)) (script : List σ) :
    Stays P (script.forM take) := by
  induction script with
  | nil => exact .pure ()
  | cons a script ih => exact (h a).bind fun _ => ih

end Work

/-! ## Scripts -/

theorem Task.finish_eq {α : Type} (task : Task α) : task.finish = task.step >>= finish := by
  cases task with
  | done value => rfl
  | tell notice next => simp [step, finish]
  | fail message next => simp [step, finish]
  | ask request next => simp [step, finish]

section

variable {σ α : Type} {P : Machine → Prop} {G : (r : Request) → r.Reply → Prop}
  {take : σ → Work Unit}

/-- Left alone, a task takes the actions of a script and ends with a value. Steps in between can do
nothing. -/
inductive Task.Follows (P : Machine → Prop) (G : (r : Request) → r.Reply → Prop)
    (take : σ → Work Unit) : Task α → List σ → α → Prop
  | done (value : α) : Task.Follows P G take (.done value) [] value
  | quiet {task next : Task α} {script : List σ} {value : α} :
      Work.Agree P G task.step (pure next) → Task.Follows P G take next script value →
      Task.Follows P G take task script value
  | act {task next : Task α} {a : σ} {script : List σ} {value : α} :
      Work.Agree P G task.step (do take a; return next) → Task.Follows P G take next script value →
      Task.Follows P G take task (a :: script) value

/-- A task with its script and its value. -/
structure Plan (P : Machine → Prop) (G : (r : Request) → r.Reply → Prop) (take : σ → Work Unit)
    (α : Type) where
  task : Task α
  script : List σ
  value : α
  follows : Task.Follows P G take task script value

variable {script : List σ} {task : Task α} {value : α} {i : Nat} {tasks : List (Task α)}

theorem map_set_of_eq {β : Type} (f : α → β) {xs : List α} {a : α} (b : α) (h : xs[i]? = some a)
    (hf : f b = f a) : (xs.set i b).map f = xs.map f := by
  obtain ⟨hi, rfl⟩ := List.getElem?_eq_some_iff.mp h
  rw [List.map_set, hf, ← List.map_set, List.set_getElem_self]

theorem Task.runAll_cons {turn : Nat} (h : tasks[turn]? = some task) (turns : List Nat) :
    Task.runAll (turn :: turns) tasks =
      task.step >>= fun next => Task.runAll turns (tasks.set turn next) := by
  rw [Task.runAll, h]

variable (htake : ∀ a, Work.Stays P (take a))

include htake

/-- To finish a task is to take the actions of its script. -/
theorem Task.Follows.finish (h : Task.Follows P G take task script value) :
    Work.Agree P G task.finish (do script.forM take; return value) := by
  induction h with
  | done value => exact .refl _
  | @quiet task next script value hstep _ ih =>
    rw [Task.finish_eq]
    exact hstep.bind_pure.trans ih
  | @act task next a script value hstep _ ih =>
    rw [Task.finish_eq]
    refine (hstep.bind_return (htake a)).trans ?_
    simpa using (Work.Agree.refl (take a)).bind (htake a) fun _ => ih

variable (plans : List (Plan P G take α))

theorem Plan.mapM_finish :
    Work.Agree P G ((plans.map (·.task)).mapM Task.finish)
      (do (plans.map (·.script)).flatten.forM take; return plans.map (·.value)) := by
  induction plans with
  | nil => exact .refl _
  | cons plan plans ih =>
    have hfirst := plan.follows.finish htake
    have hstays : Work.Stays P (do plan.script.forM take; return plan.value) :=
      (Work.Stays.forM htake _).bind fun _ => .pure _
    have hrest (first : α) := ih.bind
      ((Work.Stays.forM htake _).bind fun _ => .pure _) fun values => .refl (pure (first :: values))
    simpa using hfirst.bind hstays hrest

/-- Under a schedule, the actions that are taken are an interleaving of the scripts. -/
theorem Plan.runAll (turns : List Nat) :
    ∃ merged, Interleaves (plans.map (·.script)) merged ∧
      Work.Agree P G (Task.runAll turns (plans.map (·.task)))
        (do merged.forM take; return plans.map (·.value)) := by
  induction turns generalizing plans with
  | nil => exact ⟨_, .flatten _, mapM_finish htake plans⟩
  | cons turn turns ih =>
    rw [Task.runAll, List.getElem?_map]
    cases hplan : plans[turn]? with
    | none => exact ih plans
    | some plan =>
      obtain ⟨task, script, value, hfollows⟩ := plan
      -- a step changes the task whose turn it is, and its script if it is an action
      cases hfollows with
      | done value =>
        obtain ⟨merged, hmerged, hagree⟩ := ih plans
        refine ⟨merged, hmerged, ?_⟩
        have hsame := map_set_of_eq (·.task) _ hplan rfl
        rw [List.map_set] at hsame
        change Work.Agree P G (Task.runAll turns _) _
        rwa [hsame]
      | @quiet _ next _ _ hstep hnext =>
        let plan' : Plan P G take α := ⟨next, script, value, hnext⟩
        obtain ⟨merged, hmerged, hagree⟩ := ih (plans.set turn plan')
        rw [map_set_of_eq (·.script) plan' hplan rfl] at hmerged
        rw [List.map_set, map_set_of_eq (·.value) plan' hplan rfl] at hagree
        exact ⟨merged, hmerged, hstep.bind_pure.trans hagree⟩
      | @act _ next a rest _ hstep hnext =>
        let plan' : Plan P G take α := ⟨next, rest, value, hnext⟩
        obtain ⟨merged, hmerged, hagree⟩ := ih (plans.set turn plan')
        rw [List.map_set] at hmerged
        rw [List.map_set, map_set_of_eq (·.value) plan' hplan rfl] at hagree
        refine ⟨a :: merged, .step (by rw [List.getElem?_map, hplan]; rfl) hmerged, ?_⟩
        refine (hstep.bind_return (htake a)).trans ?_
        simpa using (Work.Agree.refl (take a)).bind (htake a) fun _ => hagree

theorem Task.Follows.next_action {rest : List σ} {a : σ}
    (h : Task.Follows P G take task script value) (hscript : script = a :: rest)
    (hi : tasks[i]? = some task) :
    ∃ turns next, Task.Follows P G take next rest value ∧
      ∀ more, Work.Agree P G (Task.runAll (turns ++ more) tasks)
        (do take a; Task.runAll more (tasks.set i next)) := by
  have hlt := (List.getElem?_eq_some_iff.mp hi).1
  induction h generalizing tasks with
  | done value => cases hscript
  | @quiet task next script value hstep _ ih =>
    obtain ⟨turns, next', hnext', hturns⟩ := ih hscript
      (List.getElem?_set_self (a := next) hlt) (by rwa [List.length_set])
    refine ⟨i :: turns, next', hnext', fun more => ?_⟩
    rw [List.cons_append, Task.runAll_cons hi]
    refine hstep.bind_pure.trans ?_
    simpa only [List.set_set] using hturns more
  | @act task next a' script value hstep hnext _ =>
    cases hscript
    refine ⟨[i], next, hnext, fun more => ?_⟩
    rw [List.singleton_append, Task.runAll_cons hi]
    exact hstep.bind_return (htake a)

/-- Every interleaving of the scripts is that of a schedule. -/
theorem Plan.exists_turns {merged : List σ} (h : Interleaves (plans.map (·.script)) merged) :
    ∃ turns, Work.Agree P G (Task.runAll turns (plans.map (·.task)))
      (do merged.forM take; return plans.map (·.value)) := by
  generalize hscripts : plans.map (·.script) = scripts at h
  induction h generalizing plans with
  | done hnil =>
    refine ⟨[], ?_⟩
    have := mapM_finish htake plans
    rwa [hscripts, List.flatten_eq_nil_iff.mpr hnil] at this
  | @step scripts i a rest merged hi _ ih =>
    subst hscripts
    obtain ⟨plan, hplan, hscript⟩ : ∃ plan, plans[i]? = some plan ∧ plan.script = a :: rest := by
      simpa using hi
    have htask : (plans.map (·.task))[i]? = some plan.task := by rw [List.getElem?_map, hplan]; rfl
    obtain ⟨turns, next, hnext, hturns⟩ := plan.follows.next_action htake hscript htask
    let plan' : Plan P G take α := ⟨next, rest, plan.value, hnext⟩
    obtain ⟨more, hmore⟩ := ih (plans.set i plan') (by rw [List.map_set])
    rw [List.map_set, map_set_of_eq (·.value) plan' hplan rfl] at hmore
    refine ⟨turns ++ more, (hturns more).trans ?_⟩
    simpa using (Work.Agree.refl (take a)).bind (htake a) fun _ => hmore

end

end Oberlet
