import Cyque.Wait

namespace Cyque.Api

open Library.Execution Library.Lookup Library.Scanning Queue Link Files Workers Transfer Dispatch Wait

def resetTask (id now : ℕ) (t : Task) : Task :=
  { t with
    taskid := id
    output := none
    hostname := none
    host := none
    totalBytesReceived := 0
    totalBytesSent := 0
    totalTransferTime := 0
    cmdExecutionTime := 0
    result := 0
    timeTaskSubmit := now }

def submitTask (now : ℕ) (r : Ref) (s : State) : State :=
  { s with
    trace := s.trace ++ [.submitted r s.nextTaskid]
    heap := Function.update s.heap r (resetTask s.nextTaskid now (s.heap r))
    readyList := s.readyList ++ [r]
    nextTaskid := s.nextTaskid + 1
    tasks := Function.update s.tasks s.nextTaskid (some r) }

def submit (r : Ref) : M ℕ := do
  let s ← get
  let now ← timestampGet
  modify (submitTask now r)
  pure s.nextTaskid

def findRunningTaskById (s : State) (id : ℕ) : Option Ref :=
  (s.runningTasks.lookup id).or (s.finishedTasks.lookup id)

def release (k : Key) (r : Ref) (s : State) : State :=
  let s := reap k r s
  { s with finishedTasks := s.finishedTasks.remove (s.heap r).taskid }

def cancelRunningTask (r : Ref) : M Unit := do
  let s ← get
  let t := s.heap r
  match s.workerTaskMap.lookup t.taskid with
  | none => pure ()
  | some k =>
    let _ ← sendWorkerMsg k (.kill t.taskid)
    deleteWorkerFiles k (cache ||| preexist) t.inputFiles
    deleteWorkerFiles k 0 t.outputFiles
    modify (release k r)
    logWorkerStats

def findTask (s : State) (id : ℤ) (rs : List Ref) : Option Ref :=
  rs.find? (fun r ↦ (s.heap r).taskid = id)

def workQueueCancelByTaskid (id : ℤ) : M Unit := do
  let s ← get
  when (0 < id)
    (match findRunningTaskById s id.toNat with
    | some r => cancelRunningTask r
    | none =>
      match findTask s id s.readyList with
      | some r => modify (fun s ↦ { s with readyList := s.readyList.erase r })
      | none =>
        match findTask s id s.completeList with
        | some r => modify (fun s ↦ { s with completeList := s.completeList.erase r })
        | none => pure ())

def cancelTask (id : ℤ) : M Unit := do
  workQueueCancelByTaskid (wrap id)
  modify (fun s ↦
    { s with trace := s.trace ++ [.cancelled id], tasks := Function.update s.tasks id none })

def dropTask (id : ℕ) (s : State) : State :=
  { s with
    runningTasks := s.runningTasks.remove id
    finishedTasks := s.finishedTasks.remove id
    workerTaskMap := s.workerTaskMap.remove id }

/-- The requests of the task are subtracted as they are, and the count of
unlabeled tasks stays. -/
def expelTask (id : ℕ) (t : Task) (w : Worker) : Worker :=
  { w with
    coresAllocated := w.coresAllocated - t.cores
    memoryAllocated := w.memoryAllocated - t.memory
    diskAllocated := w.diskAllocated - t.disk
    gpusAllocated := w.gpusAllocated - t.gpus
    currentTasks := w.currentTasks.remove id }

def dropFromWorker (k : Key) (id : ℕ) (t : Task) (s : State) : State :=
  s.setWorker k (expelTask id t)

def cancelHeldTask (k : Key) (e : ℕ × Ref) : M Unit := do
  modify (dropTask e.1)
  let t ← task e.2
  deleteWorkerFiles k (cache ||| preexist) t.inputFiles
  deleteWorkerFiles k 0 t.outputFiles
  modify (dropFromWorker k e.1 t)

def cancelWorker (k : Key) : M Unit := do
  let _ ← sendWorkerMsg k (.kill (-1))
  let w ← worker k
  forEach (cancelHeldTask k) w.currentTasks.entries

def forgetAllAvailable (s : State) : State :=
  s.workersWithAvailableResults.keys.foldl (fun s k ↦ forgetAvailableResults k s) s

def workQueueCancelAllTasks : M Unit := do
  modify (fun s ↦ { s with readyList := [], completeList := [] })
  modify forgetAllAvailable
  let s ← get
  forEach cancelWorker s.workerTable.keys

def cancelAllTasks : M Unit := do
  workQueueCancelAllTasks
  modify (fun s ↦
    { s with trace := s.trace ++ [.cancelledAll], tasks := fun _ ↦ none })

def shutDownWorker (k : Key) : M Unit := do
  let _ ← sendWorkerMsg k .exit
  removeWorker k

/-- At most `n` idle workers are shut down. -/
def workQueueShutDownWorkers (n : ℕ) : M ℕ := do
  modify (fun s ↦ { s with workerTable := s.workerTable.firstKey })
  loop (fun i ↦ do
    if i < n then
      let s ← get
      let next ← deref s.workerTable.nextKey
      modify (fun s ↦ { s with workerTable := next.2 })
      match next.1 with
      | none => pure (.inr i)
      | some e =>
        if e.2.currentTasks.size = 0 then
          shutDownWorker e.1
          pure (.inl (i + 1))
        else pure (.inl i)
    else pure (.inr i)) 0

def killWorkers : M ℕ := workQueueShutDownWorkers 0

def releaseWorker (k : Key) : M Unit := do
  let _ ← sendWorkerMsg k .release
  removeWorker k

/-- What is freed afterwards is not looked at again. -/
def workQueueDelete : M Unit := eachWorker releaseWorker

def freequeue : M Unit := workQueueDelete

def workQueueEmpty (s : State) : ℤ :=
  if s.readyList.length + s.runningTasks.size + s.finishedTasks.size + s.completeList.length = 0
  then 1 else 0

def empty (s : State) : Bool := workQueueEmpty s = 0

def int64 (i : ℤ) : ℤ := (i + 2 ^ 63) % 2 ^ 64 - 2 ^ 63

/-- `time.Unix` carries the nanoseconds that make up seconds over to these. -/
def timeUnix (sec nsec : ℤ) : GoTime := ⟨sec + nsec / 1000000000, nsec % 1000000000⟩

def convTime (tm : ℕ) : GoTime :=
  timeUnix ((int64 tm).tdiv 1000000) ((int64 tm).tmod 1000000 * 1000)

def goString (s : Option Text) : Text := cString (s.getD [])

def update (t : Task) (g : GoTask) : GoTask :=
  { g with
    command := goString (some t.commandLine)
    stdout := goString t.output
    returnStatus := t.returnStatus
    result := t.result
    host := goString t.host
    hostname := goString t.hostname
    finished := convTime t.timeTaskFinish
    submitted := convTime t.timeTaskSubmit
    committed := convTime t.timeCommitted
    nSubmissions := t.totalSubmissions
    totalExecTime := int64 (int64 t.totalCmdExecutionTime * 1000) }

def handOver (id : ℕ) (r : Ref) (t : Task) (s : State) : State :=
  { s with
    trace := s.trace ++ [.returned r id]
    tasks := Function.update s.tasks id none
    goHeap := Function.update s.goHeap r (update t (s.goHeap r)) }

def wait : M (Option Ref) := do
  match ← workQueueWait with
  | none =>
    log .gaveUp
    pure none
  | some r =>
    let s ← get
    let t := s.heap r
    let g ← deref (s.tasks t.taskid)
    modify (handOver t.taskid g (s.heap g))
    pure (some g)

def newGoTask : GoTask := ⟨0, [], [], 0, 0, [], [], ⟨0, 0⟩, ⟨0, 0⟩, ⟨0, 0⟩, 0, 0⟩

def newTask (command : Text) : M Ref := do
  let s ← get
  modify (fun s ↦
    { s with
      heap := Function.update s.heap s.allocated (workQueueTaskCreate (cString command))
      goHeap := Function.update s.goHeap s.allocated newGoTask
      allocated := s.allocated + 1 })
  pure s.allocated

/-- The error that cgo derives from `errno`. -/
def cgoError (errno : ℕ) : Option ℕ := if errno = 0 then none else some errno

/-- Nothing in `work_queue_task_specify_file` sets `errno`. -/
def addfile (r : Ref) (localName remoteName : Text) (wantCache : Bool) (type : Direction) :
    M (Option ℕ) := do
  let s ← get
  match workQueueTaskSpecifyFile (s.heap r) (cString localName) (cString remoteName) type
      (if wantCache then 1 else 0) with
  | none => pure (cgoError 0)
  | some t =>
    setTask r (fun _ ↦ t)
    pure none

end Cyque.Api
