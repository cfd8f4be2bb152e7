import Cyque.Transfer

namespace Cyque.Dispatch

open Library.Execution Library.Lookup Library.Scanning Queue Link Files Workers Messages Transfer

def fileMessage (md5String : Text → Text) (f : File) : Msg :=
  match f.type with
  | .directory => .dir f.remoteName
  | .file => .infile (makeCachedName md5String f) f.remoteName f.flags

def taskMessages (md5String : Text → Text) (t : Task) : List Msg :=
  [.task t.taskid, .cmd t.commandLine, .cores t.cores, .memory t.memory, .disk t.disk, .gpus t.gpus] ++
    t.inputFiles.map (fileMessage md5String) ++
    t.outputFiles.map (fun f ↦ .outfile (makeCachedName md5String f) f.remoteName f.flags)

def dispatch (now : ℕ) (k : Key) (r : Ref) (w : Worker) (s : State) : State :=
  (s.setTask r (fun t ↦
    { t with
      timeExecuteCmdStart := now
      hostname := some w.hostname
      host := some w.addrport })).log (.dispatched k r w.addrport w.hostname)

def startOneTask (k : Key) (r : Ref) : M ℤ := do
  let start ← timestampGet
  setTask r (fun t ↦ { t with timeSendInputStart := start })
  let result ← sendInputFiles k r
  log (.supplied k r result)
  if result ≠ success then pure result
  else
    let finish ← timestampGet
    setTask r (fun t ↦ { t with timeSendInputFinish := finish })
    let now ← timestampGet
    let w ← worker k
    modify (dispatch now k r w)
    let s ← get
    forEach (fun m ↦ do let _ ← sendWorkerMsg k m) (taskMessages s.env.md5String (s.heap r))
    let sent ← sendWorkerMsg k .end
    pure (if -1 < sent then success else workerFailure)

/-- The task leaves its worker and waits to be returned. -/
def giveBack (k : Key) (r : Ref) (s : State) : State :=
  let s := reap k r s
  { s with
    finishedTasks := s.finishedTasks.remove (s.heap r).taskid
    completeList := r :: s.completeList }

def failTask (k : Key) (r : Ref) (s : State) : State := (giveBack k r s).log (.failed k r)

def handleAppFailure (k : Key) (r : Ref) : M Unit := do
  let _ ← worker k
  modify (failTask k r)
  logWorkerStats
  let t ← task r
  when (0 < t.timeExecuteCmdStart) (deleteTaskOutputFiles k r)

def handleWorkerFailure (k : Key) : M Unit := removeWorker k

def handleFailure (k : Key) (r : Option Ref) (failType : ℤ) : M Unit := do
  if failType < 0 then
    let r ← deref r
    handleAppFailure k r
  else handleWorkerFailure k

def popReady (s : State) : State := { s with readyList := s.readyList.tail }

def startTaskOnWorker (k : Key) : M Unit := do
  let s ← get
  match s.readyList with
  | [] => pure ()
  | r :: _ =>
    modify popReady
    commitTaskToWorker k r
    let result ← startOneTask k r
    when (result ≠ success) (handleFailure k (some r) result)

def rotateReady (s : State) : State :=
  { s with readyList := s.readyList.tail ++ s.readyList.take 1 }

/-- `Wait` sets no stop time, so the loop ends with the ready list or with the
first task that no worker takes. -/
def startTasks : M ℕ :=
  loop (fun started ↦ do
    let s ← get
    match s.readyList with
    | [] => pure (.inr started)
    | r :: _ =>
      match findBestWorker s.workerTable.entries (s.heap r) with
      | some k =>
        startTaskOnWorker k
        pure (.inl (started + 1))
      | none =>
        let available ← availableWorkers
        when (0 < available) (modify rotateReady)
        pure (.inr started)) 0

abbrev maxTaskStdoutStorage : ℕ := 1024 * 1024 * 1024

def truncateMsg (dropped : ℤ) : Text :=
  "\n>>>>>> WORK QUEUE HAS TRUNCATED THE STDOUT AFTER THIS POINT.\n>>>>>> MAXIMUM OF ".toList ++
    showInt maxTaskStdoutStorage ++ " BYTES REACHED, ".toList ++ showInt dropped ++
    " BYTES TRUNCATED.".toList

structure ResultLine where
  status : ℤ
  outputLength : ℤ
  executionTime : ℕ
  taskid : ℕ
deriving DecidableEq

abbrev workQueueProtocolFieldMax : ℕ := 256

/-- The fields of a result as they stand in its line. -/
structure ResultFields where
  status : Text
  outputLength : Text
  executionTime : Text
  taskid : ℤ
deriving DecidableEq

/-- `"result %s %s %s %lld"` -/
def scanResult (line : Text) : Option ResultFields :=
  match (sscanf line (lits "result" ++
      [.space, .word, .space, .word, .space, .word, .space, .int64])).values with
  | [.word a, .word b, .word c, .int i] => some ⟨a, b, c, i⟩
  | _ => none

/-- A row of `items` as a string, with `next` for the row behind it. A field that
fills its row goes on there. -/
def spill (field next : Text) : Text :=
  if field.length < workQueueProtocolFieldMax then field
  else field.take workQueueProtocolFieldMax ++ next

def ResultFields.parse (f : ResultFields) : ResultLine where
  status := atoi (spill f.status (spill f.outputLength f.executionTime))
  outputLength := atoll (spill f.outputLength f.executionTime)
  executionTime := stamp (atoll f.executionTime)
  taskid := stamp f.taskid

def parseResult (line : Text) : Option ResultLine := (scanResult line).map ResultFields.parse

def chargeExecution (received now executionTime : ℕ) (t : Task) : Task :=
  let observed := stamp (now - t.timeExecuteCmdStart)
  let time := if executionTime < observed then executionTime else observed
  { t with
    timeReceiveResultStart := received
    cmdExecutionTime := time
    totalCmdExecutionTime := (t.totalCmdExecutionTime + time) % 2 ^ 64 }

def charge (received now executionTime : ℕ) (k : Key) (r : Ref) (s : State) : State :=
  (s.setTask r (chargeExecution received now executionTime)).log (.charged k r)

/-- The standard output is read into the task. False when the link failed. -/
def receiveStdout (k : Key) (r : Ref) (outputLength : ℤ) : M Bool := do
  let retrieved := min outputLength maxTaskStdoutStorage
  when (maxTaskStdoutStorage < outputLength) (setTask r (mark stdoutMissing))
  if retrieved + 1 < 0 then
    -- The size of the allocation is unsigned, and one this large fails.
    linkSoak k outputLength
    setTask r (fun t ↦ { t with output := none })
    setTask r (mark stdoutMissing)
    pure true
  else if 0 < retrieved then
    let got ← linkRead k retrieved.toNat
    if got.1 ≠ retrieved then
      setTask r (fun t ↦ { t with output := some got.2 })
      pure false
    else if retrieved < outputLength then
      linkSoak k (outputLength - retrieved)
      let notice := truncateMsg (outputLength - retrieved)
      setTask r (fun t ↦
        { t with output := some (got.2.take (maxTaskStdoutStorage - notice.length) ++ notice) })
      pure true
    else
      setTask r (fun t ↦ { t with output := some got.2 })
      pure true
  else
    setTask r (fun t ↦ { t with output := some [] })
    pure true

def finish (now : ℕ) (k : Key) (line : Text) (l : ResultLine) (r : Ref) (s : State) : State :=
  let s := s.setTask r (fun t ↦
    { t with
      timeReceiveResultFinish := now
      returnStatus := l.status
      timeExecuteCmdFinish := (t.timeExecuteCmdStart + t.cmdExecutionTime) % 2 ^ 64 })
  { s with
    trace := s.trace ++ [.result k r line]
    runningTasks := s.runningTasks.remove l.taskid
    finishedTasks := s.finishedTasks.insert l.taskid r
    workerTable := s.workerTable.alter k (fun w ↦ { w with finishedTasks := w.finishedTasks + 1 }) }

def processResult (k : Key) (line : Text) : M ℤ := do
  match parseResult line with
  | none => pure workerFailure
  | some l =>
    let w ← worker k
    match w.currentTasks.lookup l.taskid with
    | none =>
      linkSoak k l.outputLength
      pure success
    | some r =>
      let received ← timestampGet
      let now ← timestampGet
      modify (charge received now l.executionTime k r)
      if ← receiveStdout k r l.outputLength then
        let now ← timestampGet
        modify (finish now k line l r)
        pure success
      else pure workerFailure

def readResult (k : Key) (count : ℕ) : M (ℕ ⊕ (ℤ × ℕ)) := do
  let m ← recvWorkerMsgRetry k
  if m.1 < 0 then pure (.inr (workerFailure, count))
  else if stringPrefixIs m.2 "result" then
    let result ← processResult k m.2
    if result ≠ success then pure (.inr (result, count)) else pure (.inl (count + 1))
  else if m.2 = "end".toList then pure (.inr (success, count))
  else pure (.inr (workerFailure, count))

def processAvailableResults (k : Key) (maxCount : ℤ) : M Unit := do
  let _ ← sendWorkerMsg k (.sendResults maxCount)
  let p ← loop (readResult k) 0
  let result := if 0 < maxCount ∧ maxCount < p.2 then workerFailure else p.1
  when (result ≠ success) (handleFailure k none result)

def creditWorker (time : ℕ) (w : Worker) : Worker :=
  { w with
    finishedTasks := w.finishedTasks - 1
    totalTasksComplete := w.totalTasksComplete + 1
    totalTaskTime := (w.totalTaskTime + time) % 2 ^ 64 }

def complete (now : ℕ) (k : Key) (r : Ref) (s : State) : State :=
  let s := giveBack k r s
  let s := s.setTask r (fun t ↦ { t with timeTaskFinish := now })
  (s.setWorker k (creditWorker (s.heap r).cmdExecutionTime)).log (.completed k r)

def fetch (k : Key) (r : Ref) (s : State) : State := s.log (.fetching k r (s.heap r).outputFiles)

def fetchOutputFromWorker (k : Key) (id : ℕ) : M Unit := do
  let w ← worker k
  match w.currentTasks.lookup id with
  | none => handleFailure k none 0
  | some r =>
    let start ← timestampGet
    setTask r (fun t ↦ { t with timeReceiveOutputStart := start })
    modify (fetch k r)
    let result ← getOutputFiles k r
    if result ≤ 0 then handleFailure k (some r) result
    else
      let now ← timestampGet
      setTask r (fun t ↦ { t with timeReceiveOutputFinish := now })
      deleteUncacheableFiles k r
      let now ← timestampGet
      modify (complete now k r)
      logWorkerStats

def receiveTasks : M ℕ :=
  loop (fun received ↦ do
    let s ← get
    match s.finishedTasks.keys with
    | [] => pure (.inr received)
    | id :: _ =>
      let k ← deref (s.workerTaskMap.lookup id)
      fetchOutputFromWorker k id
      pure (.inl (received + 1))) 0

end Cyque.Dispatch
