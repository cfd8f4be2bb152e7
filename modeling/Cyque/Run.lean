import Cyque.Api

namespace Cyque.Run

open Library.Execution Library.Lookup Library.Scanning Queue Link Files Api

/-- The queue that `NewQueue` makes, the first one of its process. -/
def newQueue (env : Environment) : State where
  env := env
  calls := 0
  trace := []
  heap := fun _ ↦ workQueueTaskCreate []
  goHeap := fun _ ↦ newGoTask
  allocated := 0
  tasks := fun _ ↦ none
  nextTaskid := 1
  readyList := []
  runningTasks := .empty id
  finishedTasks := .empty id
  completeList := []
  workerTable := .empty (fun k ↦ env.hashString (linkToHashKey k))
  workerTaskMap := .empty id
  workersWithAvailableResults := .empty (fun k ↦ env.hashString (linkToHashKey k))
  linkPollEnd := 0

/-- The calls a Go program makes. -/
inductive Call
  | newTask (command : Text)
  | addfile (r : Ref) (localName remoteName : Text) (cache : Bool) (type : Direction)
  | submit (r : Ref)
  | wait
  | cancelTask (id : ℤ)
  | cancelAllTasks
  | killWorkers

def perform : Call → M Unit
  | .newTask command => do let _ ← newTask command
  | .addfile r localName remoteName cache type => do
    let _ ← addfile r localName remoteName cache type
  | .submit r => do let _ ← submit r
  | .wait => do let _ ← wait
  | .cancelTask id => cancelTask id
  | .cancelAllTasks => cancelAllTasks
  | .killWorkers => do let _ ← killWorkers

/-- A task that exists is submitted when it is not outstanding, and the
identifiers fit an `int`. -/
def Allowed (s : State) : Call → Prop
  | .addfile r _ _ _ _ => r < s.allocated
  | .submit r => r < s.allocated ∧ (∀ i, s.tasks i ≠ some r) ∧ s.nextTaskid < 2 ^ 31 - 1
  | .cancelTask id => wrap id = id
  | _ => True

/-- The states of a queue between the calls of a Go program. Every call also
meets `ok`. -/
inductive Reachable (ok : State → Call → Prop) (env : Environment) : State → Prop
  | start : Reachable ok env (newQueue env)
  | call {s s' : State} {c : Call} {n : ℕ} (h : Reachable ok env s) (ha : Allowed s c)
      (hok : ok s c) (hp : perform c n s = .done () s') : Reachable ok env s'

end Cyque.Run
