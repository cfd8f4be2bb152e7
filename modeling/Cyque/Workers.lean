import Cyque.Link
import Cyque.Library.Binary64

namespace Cyque.Workers

open Library.Execution Library.Lookup Library.Scanning Library.Binary64 Queue Link

def unknown : Text := "unknown".toList

abbrev asynchronyModifier : ℤ := 0

/-- The multiplier of a queue made by `NewQueue` is one, so that the product
only rounds. -/
def overcommittedResourceTotal (total : ℤ) (coresFlag : Bool) : ℤ :=
  if 0 < total then
    toInt64 (round total.toNat) + if coresFlag then asynchronyModifier else 0
  else 0

def isKnown (w : Worker) : Bool := w.hostname ≠ unknown

def isAvailable (w : Worker) : Bool :=
  isKnown w &&
    if 0 < w.unlabeledAllocated then
      decide (w.unlabeledAllocated < overcommittedResourceTotal w.resources.workers.total true)
    else
      decide (w.coresAllocated < overcommittedResourceTotal w.resources.cores.total true ∨
        w.diskAllocated < w.resources.disk.total ∨
        w.memoryAllocated < overcommittedResourceTotal w.resources.memory.total false)

def exhaust (s : State) : State := { s with workerTable := s.workerTable.exhaust }

/-- Counting the workers takes the one cursor of the table to its end. -/
def knownWorkers : M ℕ := do
  let s ← get
  modify exhaust
  pure (s.workerTable.values.countP isKnown)

def availableWorkers : M ℕ := do
  let s ← get
  modify exhaust
  pure (s.workerTable.values.countP isAvailable)

def logWorkerStats : M Unit := do
  let _ ← knownWorkers
  let _ ← availableWorkers
  pure ()

def checkWorkerAgainstTask (w : Worker) (t : Task) : Bool :=
  if t.unlabeled then
    !decide (0 < w.coresAllocated ∨ 0 < w.memoryAllocated ∨ 0 < w.diskAllocated ∨
        0 < w.gpusAllocated) &&
      !decide (overcommittedResourceTotal w.resources.workers.total true < w.unlabeledAllocated + 1)
  else
    !decide (0 < w.unlabeledAllocated ∨
      overcommittedResourceTotal w.resources.cores.total true < w.coresAllocated + max t.cores 0 ∨
      overcommittedResourceTotal w.resources.memory.total false <
        w.memoryAllocated + max t.memory 0 ∨
      w.resources.disk.total < w.diskAllocated + max t.disk 0 ∨
      overcommittedResourceTotal w.resources.gpus.total false < w.gpusAllocated + max t.gpus 0)

def findWorkerByFcfs (ws : List (Key × Worker)) (t : Task) : Option Key :=
  (ws.find? (fun e ↦ checkWorkerAgainstTask e.2 t)).map Prod.fst

/-- The average time of a task at the worker. The division is one of unsigned
numbers of 64 bits, and its result becomes a `double`. -/
def averageTime (w : Worker) : ℕ :=
  round ((w.totalTaskTime + w.totalTransferTime) % 2 ^ 64 / w.totalTasksComplete)

def fasterWorker (t : Task) (best : Option (Key × ℕ)) (e : Key × Worker) : Option (Key × ℕ) :=
  if checkWorkerAgainstTask e.2 t ∧ 0 < e.2.totalTasksComplete then
    match best with
    | none => some (e.1, averageTime e.2)
    | some b => if averageTime e.2 < b.2 then some (e.1, averageTime e.2) else some b
  else best

def findWorkerByTime (ws : List (Key × Worker)) (t : Task) : Option Key :=
  match ws.foldl (fasterWorker t) none with
  | some b => some b.1
  | none => findWorkerByFcfs ws t

/-- Neither a task nor a queue made in Go chooses another algorithm. -/
def findBestWorker (ws : List (Key × Worker)) (t : Task) : Option Key := findWorkerByTime ws t

def allocate (w : Worker) (t : Task) : Worker :=
  if t.unlabeled then { w with unlabeledAllocated := w.unlabeledAllocated + 1 }
  else
    { w with
      coresAllocated := w.coresAllocated + max t.cores 0
      memoryAllocated := w.memoryAllocated + max t.memory 0
      diskAllocated := w.diskAllocated + max t.disk 0
      gpusAllocated := w.gpusAllocated + max t.gpus 0 }

/-- Negative counters are reset together, as an accounting error. -/
def clamp (w : Worker) : Worker :=
  { w with
    unlabeledAllocated := max w.unlabeledAllocated 0
    coresAllocated := max w.coresAllocated 0
    memoryAllocated := max w.memoryAllocated 0
    diskAllocated := max w.diskAllocated 0
    gpusAllocated := max w.gpusAllocated 0 }

def deallocate (w : Worker) (t : Task) : Worker :=
  clamp (if t.unlabeled then { w with unlabeledAllocated := w.unlabeledAllocated - 1 }
    else
      { w with
        coresAllocated := w.coresAllocated - max t.cores 0
        memoryAllocated := w.memoryAllocated - max t.memory 0
        diskAllocated := w.diskAllocated - max t.disk 0
        gpusAllocated := w.gpusAllocated - max t.gpus 0 })

def acceptTask (t : Task) (r : Ref) (w : Worker) : Worker :=
  allocate { w with currentTasks := w.currentTasks.insert t.taskid r } t

def releaseTask (t : Task) (w : Worker) : Worker :=
  deallocate { w with currentTasks := w.currentTasks.remove t.taskid } t

def commit (now : ℕ) (k : Key) (r : Ref) (s : State) : State :=
  let t := s.heap r
  { s with
    trace := s.trace ++ [.committed k r t.taskid]
    heap := Function.update s.heap r
      { t with timeCommitted := now, totalSubmissions := t.totalSubmissions + 1 }
    workerTable := s.workerTable.alter k (acceptTask t r)
    runningTasks := s.runningTasks.insert t.taskid r
    workerTaskMap := s.workerTaskMap.insert t.taskid k }

def reap (k : Key) (r : Ref) (s : State) : State :=
  let t := s.heap r
  { s with
    workerTable := s.workerTable.alter k (releaseTask t)
    runningTasks := s.runningTasks.remove t.taskid
    workerTaskMap := s.workerTaskMap.remove t.taskid }

/-- The attempt is forgotten and the task goes back to the head of the ready
list. `elapsed` is the time the attempt is charged with. -/
def requeue (elapsed : ℕ) (k : Key) (r : Ref) (s : State) : State :=
  let s := s.setTask r (fun t ↦
    { t with
      result := 0
      totalBytesTransferred := 0
      totalTransferTime := 0
      cmdExecutionTime := 0
      totalCmdExecutionTime := (t.totalCmdExecutionTime + elapsed) % 2 ^ 64
      output := none
      cores := if t.unlabeled then -1 else t.cores
      memory := if t.unlabeled then -1 else t.memory
      disk := if t.unlabeled then -1 else t.disk
      gpus := if t.unlabeled then -1 else t.gpus })
  let s := reap k r { s with readyList := r :: s.readyList }
  { s with
    trace := s.trace ++ [.requeued k r]
    finishedTasks := s.finishedTasks.remove (s.heap r).taskid }

def disconnect (k : Key) (s : State) : State :=
  { s with
    trace := s.trace ++ [.removed k]
    workerTable := s.workerTable.remove k
    workersWithAvailableResults := s.workersWithAvailableResults.remove k }

def commitTaskToWorker (k : Key) (r : Ref) : M Unit := do
  let _ ← worker k
  let now ← timestampGet
  modify (commit now k r)
  logWorkerStats

/-- The time of an attempt that had started to execute. -/
def elapsedTime (t : Task) : M ℕ := do
  if t.timeCommitted ≤ t.timeExecuteCmdStart then
    let now ← timestampGet
    pure (stamp (now - t.timeExecuteCmdStart))
  else pure 0

def requeueTask (k : Key) (r : Ref) : M Unit := do
  let t ← task r
  let elapsed ← elapsedTime t
  modify (requeue elapsed k r)
  logWorkerStats

def cleanupWorker (k : Key) : M Unit := do
  let w ← worker k
  let s ← get
  setWorker k (fun w ↦ { w with currentFiles := .empty s.env.hashString })
  forEach (requeueTask k) w.currentTasks.values
  setWorker k (fun w ↦ { w with currentTasks := .empty id, finishedTasks := 0 })

def removeWorker (k : Key) : M Unit := do
  cleanupWorker k
  modify (disconnect k)
  logWorkerStats

end Cyque.Workers
