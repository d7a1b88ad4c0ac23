import Oberlet.Console.Run

/-!
# Tasks

The tasks of a phase are worked on side by side: each takes its steps in order, and whose step comes
next is left to a schedule.
-/

namespace Oberlet

/-- Work that is done in steps: to tell the user something, to fail, to ask the host for something.
A failure does not end a task by itself. -/
inductive Task (α : Type) : Type
  | done (value : α)
  | tell (notice : Notice) (next : Task α)
  | fail (message : String) (next : Task α)
  | ask (request : Request) (next : request.Reply → Task α)

/-- What tasks share: the console, the host, and the first failure among them. -/
abbrev Work (α : Type) := StateT (Option String) Run α

/-- Notes a failure, unless there was one before. -/
def Work.fail (message : String) : Work Unit := modify (·.or (some message))

namespace Task

def step {α : Type} : Task α → Work (Task α)
  | done value => return done value
  | tell notice next => do
    Run.tell notice
    return next
  | fail message next => do
    Work.fail message
    return next
  | ask request next => return next (← Job.request request)

def finish {α : Type} : Task α → Work α
  | done value => return value
  | tell notice next => do
    Run.tell notice
    next.finish
  | fail message next => do
    Work.fail message
    next.finish
  | ask request next => do (next (← Job.request request)).finish

/-- Takes the steps of tasks. Each of the turns names, by its number, the task that takes the next
step. When no turns are left, the tasks are finished one after the other. -/
def runAll {α : Type} : List Nat → List (Task α) → Work (List α)
  | [], tasks => tasks.mapM finish
  | turn :: turns, tasks => do
    match tasks[turn]? with
    | some task => runAll turns (tasks.set turn (← task.step))
    | none => runAll turns tasks

end Task

end Oberlet
