import Cyque.Workers

namespace Cyque.Messages

open Library.Execution Library.Lookup Library.Scanning Queue Link Workers

abbrev workQueueProtocolVersion : ℤ := 3

/-- `"workqueue %d %s %s %s %s"` -/
def workqueueFormat : List Directive :=
  lits "workqueue" ++ [.space, .int32, .space, .word, .space, .word, .space, .word, .space, .word]

def processWorkqueue (k : Key) (line : Text) : M ℤ := do
  match (sscanf line workqueueFormat).values with
  | [.int protocol, .word hostname, .word os, .word arch, .word version] =>
    if protocol ≠ workQueueProtocolVersion then pure (-1)
    else
      setWorker k (fun w ↦
        { w with
          hostname := hostname
          os := os
          arch := arch
          version := version
          foreman := w.foreman || os = "foreman".toList })
      logWorkerStats
      pure 0
  | _ => pure (-1)

/-- `"resource %s %lld %lld %lld %lld %lld"` -/
def resourceFormat : List Directive :=
  lits "resource" ++ [.space, .word, .space, .int64, .space, .int64, .space, .int64, .space, .int64,
    .space, .int64]

def setResource (category : Text) (r : Resource) (rs : Resources) : Resources :=
  if category = "cores".toList then { rs with cores := r }
  else if category = "memory".toList then { rs with memory := r }
  else if category = "disk".toList then { rs with disk := r }
  else if category = "gpus".toList then { rs with gpus := r }
  else if category = "workers".toList then { rs with workers := r }
  else rs

def processResource (k : Key) (line : Text) : M ℤ := do
  match (sscanf line resourceFormat).values with
  | [.word category, .int tag] =>
    if category = "tag".toList then
      setWorker k (fun w ↦ { w with resources := { w.resources with tag := tag } })
      logWorkerStats
      pure 0
    else pure 0
  | [.word category, .int inuse, .int committed, .int total, .int smallest, .int largest] =>
    setWorker k (fun w ↦
      { w with
        resources := setResource category ⟨inuse, committed, total, smallest, largest⟩ w.resources })
    pure 0
  | _ => pure 0

def queueStatus : Text := "QUEUE_STATUS".toList

/-- The report goes to the peer and has no other effect than to walk the
tables it is about. -/
def processQueueStatus (k : Key) (line : Text) : M ℤ := do
  setWorker k (fun w ↦ { w with hostname := queueStatus })
  when (line.takeWhile (· ≠ '_') = "task".toList)
    (modify (fun s ↦ { s with runningTasks := s.runningTasks.exhaust }))
  modify exhaust
  pure 0

/-- A queue made in Go has no name: the answer is a blank line. -/
def processName (k : Key) : M ℤ := do
  let _ ← sendWorkerMsg k .name
  pure 0

def noteAvailableResults (k : Key) (s : State) : State :=
  { s with
    trace := s.trace ++ [.noted k]
    workersWithAvailableResults := s.workersWithAvailableResults.insertNew k k }

/-- Returns zero for a message that was processed, one for a message that is
left to the caller, and minus one for a failure. -/
def processLine (k : Key) (line : Text) : M (ℤ × Text) :=
  if stringPrefixIs line "alive" then pure (0, line)
  else if stringPrefixIs line "workqueue" then do
    let result ← processWorkqueue k line
    pure (result, line)
  else if stringPrefixIs line "queue_status" || stringPrefixIs line "worker_status" ||
      stringPrefixIs line "task_status" then do
    let result ← processQueueStatus k line
    pure (result, line)
  else if stringPrefixIs line "available_results" then do
    modify (noteAvailableResults k)
    pure (0, line)
  else if stringPrefixIs line "resource" then do
    let result ← processResource k line
    pure (result, line)
  else if stringPrefixIs line "auth" then pure (-1, line)
  else if stringPrefixIs line "ready" then pure (-1, line)
  else if stringPrefixIs line "name" then do
    let result ← processName k
    pure (result, line)
  else pure (1, line)

def recvWorkerMsg (k : Key) : M (ℤ × Text) := do
  match ← linkReadline k workQueueLineMax with
  | none => pure (-1, [])
  | some line =>
    let now ← timestampGet
    setWorker k (fun w ↦ { w with lastMsgRecvTime := now })
    log (.received k line)
    processLine k line

def recvWorkerMsgRetry (k : Key) : M (ℤ × Text) :=
  loop (fun _ ↦ do
    let r ← recvWorkerMsg k
    if r.1 = 0 then pure (.inl ()) else pure (.inr r)) ()

end Cyque.Messages
