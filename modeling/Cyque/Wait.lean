import Cyque.Dispatch

namespace Cyque.Wait

open Library.Execution Library.Lookup Library.Scanning Queue Link Workers Messages Dispatch

abbrev keepaliveInterval : ℤ := 300
abbrev keepaliveTimeout : ℤ := 30

/-- The difference is cut to an `int` before it is divided. -/
def lastRecvElapsedTime (now : ℕ) (w : Worker) : ℤ :=
  (wrap (now - if isKnown w then w.lastMsgRecvTime else w.startTime)).tdiv 1000000

def checkKeepalive (now : ℕ) (k : Key) : M Unit := do
  let w ← worker k
  log (.tested k)
  if w.keepaliveCheckSentTime ≤ w.lastMsgRecvTime then
    when (keepaliveInterval ≤ lastRecvElapsedTime now w) (do
      let sent ← sendWorkerMsg k .check
      if sent < 0 then handleWorkerFailure k
      else setWorker k (fun w ↦ { w with keepaliveCheckSentTime := now }))
  else
    let s ← get
    when (w.keepaliveCheckSentTime < s.linkPollEnd ∧
        keepaliveTimeout ≤ wrap ((s.linkPollEnd - w.keepaliveCheckSentTime) / 1000000 : ℕ))
      (handleWorkerFailure k)

/-- A traversal of the workers. The cursor is the table's own, and the body may
move it. -/
def eachWorker (body : Key → M Unit) : M Unit := do
  modify (fun s ↦ { s with workerTable := s.workerTable.firstKey })
  loop (fun _ ↦ do
    let s ← get
    let next ← deref s.workerTable.nextKey
    modify (fun s ↦ { s with workerTable := next.2 })
    match next.1 with
    | none => pure (.inr ())
    | some e =>
      body e.1
      pure (.inl ())) ()

def removeUnresponsiveWorkers : M Unit := do
  let now ← timestampGet
  eachWorker (checkKeepalive now)

def noResource : Resource := ⟨0, 0, 0, 0, 0⟩

def newWorker (env : Environment) (now : ℕ) (p : Peer) : Worker where
  hostname := unknown
  os := unknown
  arch := unknown
  version := unknown
  addrport := p.addrport
  foreman := false
  resources := ⟨-1, noResource, noResource, noResource, noResource, noResource⟩
  unlabeledAllocated := 0
  coresAllocated := 0
  memoryAllocated := 0
  diskAllocated := 0
  gpusAllocated := 0
  currentFiles := .empty env.hashString
  incoming := p.incoming
  currentTasks := .empty id
  finishedTasks := 0
  totalTasksComplete := 0
  totalBytesTransferred := 0
  totalTaskTime := 0
  totalTransferTime := 0
  startTime := now
  lastMsgRecvTime := 0
  keepaliveCheckSentTime := 0

def connect (now : ℕ) (p : Peer) (s : State) : State :=
  { s with
    trace := s.trace ++ [.connected p.link]
    workerTable := s.workerTable.insertNew p.link (newWorker s.env now p) }

/-- The allocator never returns the address of a link that is open: an answer
that names one stands for a failed `accept`. -/
def addWorker : M Unit := do
  let s ← get
  match (← ask).peer with
  | none => pure ()
  | some p =>
    if (s.workerTable.lookup p.link).isSome then pure ()
    else
      let now ← timestampGet
      modify (connect now p)
      logWorkerStats

def handleWorker (k : Key) : M Unit := do
  let m ← recvWorkerMsg k
  when (m.1 ≠ 0) (handleWorkerFailure k)

def forgetAvailableResults (k : Key) (s : State) : State :=
  { s with
    trace := s.trace ++ [.forgot k]
    workersWithAvailableResults := s.workersWithAvailableResults.remove k }

/-- The key of a worker that failed is gone from the table already, and its
memory was freed; it is passed on here as it was. -/
def collectAvailableResults : M Unit := do
  modify (fun s ↦
    { s with workersWithAvailableResults := s.workersWithAvailableResults.firstKey })
  loop (fun _ ↦ do
    let s ← get
    let next ← deref s.workersWithAvailableResults.nextKey
    modify (fun s ↦ { s with workersWithAvailableResults := next.2 })
    match next.1 with
    | none => pure (.inr ())
    | some e =>
      processAvailableResults e.2 (-1)
      modify (forgetAvailableResults e.1)
      pure (.inl ())) ()

/-- `Wait` sets no stop time, so a single connection is accepted. -/
def waitLoopPollLinks : M Unit := do
  let s ← get
  modify exhaust
  let poll ← ask
  let now ← timestampGet
  modify (fun s ↦ { s with linkPollEnd := now })
  when poll.listening addWorker
  forEach (fun k ↦ when (poll.ready k) (handleWorker k)) s.workerTable.keys
  let s ← get
  when (0 < s.workersWithAvailableResults.size) collectAvailableResults

def waitLoopTransferTasks : M Unit := do
  let _ ← startTasks
  let _ ← receiveTasks
  pure ()

def popComplete (s : State) : State := { s with completeList := s.completeList.tail }

def waitIteration : M (Unit ⊕ Option Ref) := do
  removeUnresponsiveWorkers
  let s ← get
  match s.completeList with
  | r :: _ =>
    modify popComplete
    pure (.inr (some r))
  | [] =>
    if s.runningTasks.size = 0 ∧ s.readyList = [] then pure (.inr none)
    else
      waitLoopPollLinks
      let known ← knownWorkers
      let s ← get
      log (.polled known s.finishedTasks.size)
      when (0 < known) waitLoopTransferTasks
      pure (.inl ())

def workQueueWait : M (Option Ref) := loop (fun _ ↦ waitIteration) ()

end Cyque.Wait
