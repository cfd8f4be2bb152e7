import Cyque.Library.Execution
import Cyque.Library.Lookup
import Cyque.Library.Scanning
import Mathlib.Logic.Function.Basic

namespace Cyque.Queue

open Library.Execution Library.Lookup Library.Scanning

/-- The address of a task, in C and in Go: `NewTask` makes the two together. -/
abbrev Ref := ℕ

/-- The address of an open link, under which the master files the worker. -/
abbrev Key := ℕ

inductive FileType
  | file
  | directory
deriving DecidableEq

structure File where
  type : FileType
  flags : ℤ
  offset : ℤ
  pieceLength : ℤ
  payload : Text
  remoteName : Text
deriving DecidableEq

def flagSet (flags : ℤ) (mask : ℕ) : Bool := (flags % 2 ^ 32).toNat &&& mask != 0

abbrev cache : ℕ := 1
abbrev preexist : ℕ := 4

abbrev inputMissing : ℕ := 1
abbrev outputMissing : ℕ := 2
abbrev stdoutMissing : ℕ := 4

/-- Time stamps are unsigned numbers of 64 bits. -/
def stamp (i : ℤ) : ℕ := (i % 2 ^ 64).toNat

structure Task where
  commandLine : Text
  output : Option Text
  inputFiles : List File
  outputFiles : List File
  taskid : ℕ
  returnStatus : ℤ
  result : ℕ
  host : Option Text
  hostname : Option Text
  timeCommitted : ℕ
  timeTaskSubmit : ℕ
  timeTaskFinish : ℕ
  timeSendInputStart : ℕ
  timeSendInputFinish : ℕ
  timeExecuteCmdStart : ℕ
  timeExecuteCmdFinish : ℕ
  timeReceiveResultStart : ℕ
  timeReceiveResultFinish : ℕ
  timeReceiveOutputStart : ℕ
  timeReceiveOutputFinish : ℕ
  totalBytesReceived : ℤ
  totalBytesSent : ℤ
  totalBytesTransferred : ℤ
  totalTransferTime : ℕ
  cmdExecutionTime : ℕ
  totalSubmissions : ℕ
  totalCmdExecutionTime : ℕ
  memory : ℤ
  disk : ℤ
  cores : ℤ
  gpus : ℤ
  unlabeled : Bool

def workQueueTaskCreate (commandLine : Text) : Task where
  commandLine := commandLine
  output := none
  inputFiles := []
  outputFiles := []
  taskid := 0
  returnStatus := -1
  result := 0
  host := none
  hostname := none
  timeCommitted := 0
  timeTaskSubmit := 0
  timeTaskFinish := 0
  timeSendInputStart := 0
  timeSendInputFinish := 0
  timeExecuteCmdStart := 0
  timeExecuteCmdFinish := 0
  timeReceiveResultStart := 0
  timeReceiveResultFinish := 0
  timeReceiveOutputStart := 0
  timeReceiveOutputFinish := 0
  totalBytesReceived := 0
  totalBytesSent := 0
  totalBytesTransferred := 0
  totalTransferTime := 0
  cmdExecutionTime := 0
  totalSubmissions := 0
  totalCmdExecutionTime := 0
  memory := -1
  disk := -1
  cores := -1
  gpus := -1
  unlabeled := true

/-- A Go time: seconds and nanoseconds since the epoch. -/
structure GoTime where
  sec : ℤ
  nsec : ℤ
deriving DecidableEq

structure GoTask where
  id : ℤ
  command : Text
  stdout : Text
  returnStatus : ℤ
  result : ℤ
  host : Text
  hostname : Text
  finished : GoTime
  committed : GoTime
  submitted : GoTime
  nSubmissions : ℤ
  totalExecTime : ℤ
deriving DecidableEq

structure Resource where
  inuse : ℤ
  committed : ℤ
  total : ℤ
  smallest : ℤ
  largest : ℤ
deriving DecidableEq

structure Resources where
  tag : ℤ
  workers : Resource
  disk : Resource
  cores : Resource
  memory : Resource
  gpus : Resource
deriving DecidableEq

structure Stat where
  mtime : ℤ
  size : ℕ
  mode : ℕ
  isDir : Bool
deriving DecidableEq

/-- A connected worker. `incoming` is everything the other end of the link
will ever send that the master has not read yet. -/
structure Worker where
  hostname : Text
  os : Text
  arch : Text
  version : Text
  addrport : Text
  foreman : Bool
  resources : Resources
  unlabeledAllocated : ℤ
  coresAllocated : ℤ
  memoryAllocated : ℤ
  diskAllocated : ℤ
  gpusAllocated : ℤ
  currentFiles : Table Text Stat
  incoming : Text
  currentTasks : Table ℕ Ref
  finishedTasks : ℤ
  totalTasksComplete : ℕ
  totalBytesTransferred : ℤ
  totalTaskTime : ℕ
  totalTransferTime : ℕ
  startTime : ℕ
  lastMsgRecvTime : ℕ
  keepaliveCheckSentTime : ℕ

inductive Msg
  | name
  | check
  | exit
  | release
  | kill (taskid : ℤ)
  | sendResults (count : ℤ)
  | unlink (name : Text)
  | get (name : Text)
  | put (name : Text) (length : ℤ) (mode : ℕ) (flags : ℤ)
  | task (taskid : ℕ)
  | cmd (commandLine : Text)
  | cores (n : ℤ)
  | memory (n : ℤ)
  | disk (n : ℤ)
  | gpus (n : ℤ)
  | dir (remoteName : Text)
  | infile (cachedName remoteName : Text) (flags : ℤ)
  | outfile (cachedName remoteName : Text) (flags : ℤ)
  | end
deriving DecidableEq

/-- One line of the answer to a `get`, with what became of it at the master:
whether the directory was made, whether the file could be opened, and how many
of its bytes were stored. -/
inductive Entry
  | dir (path localName : Text) (created : Bool)
  | file (path localName : Text) (length : ℤ) (opened : Bool) (stored : ℤ)
  | missing (path : Text)
deriving DecidableEq

/-- The history of a queue. Nothing in the program reads it. -/
inductive Event
  | submitted (r : Ref) (id : ℕ)
  | returned (r : Ref) (id : ℕ)
  | cancelled (id : ℤ)
  | cancelledAll
  | gaveUp
  | connected (k : Key)
  | removed (k : Key)
  | sent (k : Key) (m : Msg)
  | received (k : Key) (line : Text)
  | noted (k : Key)
  | forgot (k : Key)
  | committed (k : Key) (r : Ref) (id : ℕ)
  | supplied (k : Key) (r : Ref) (result : ℤ)
  | dispatched (k : Key) (r : Ref) (host hostname : Text)
  | result (k : Key) (r : Ref) (line : Text)
  | listed (k : Key) (name : Text) (entries : List Text)
  | streamed (k : Key) (localName name : Text) (length actual : ℤ)
  | inaccessible (k : Key) (localName name : Text) (flags : ℤ)
  | fetching (k : Key) (r : Ref) (files : List File)
  | replied (k : Key) (r : Ref) (file : File) (name : Text) (entries : List Entry) (result : ℤ)
  | charged (k : Key) (r : Ref)
  | requeued (k : Key) (r : Ref)
  | failed (k : Key) (r : Ref)
  | completed (k : Key) (r : Ref)
  | polled (known waiting : ℕ)
  | tested (k : Key)
  | clock (now : ℕ)
deriving DecidableEq

/-- A peer that asks for a connection: the address of its new link, its
address and port in text, and everything it will ever send. -/
structure Peer where
  link : Key
  addrport : Text
  incoming : Text

/-- What the operating system answers to one call. Each call looks at the
fields that are about it. `leftover` is what an uninitialised buffer holds. -/
structure Answer where
  now : ℕ
  arrived : ℕ
  closed : Bool
  wrote : ℤ
  opened : Bool
  moved : ℤ
  leftover : Text
  stat : Option Stat
  names : List Text
  peer : Option Peer
  listening : Bool
  ready : Key → Bool

/-- What surrounds the queue and does not change: the hash function of the
tables, the digest of `make_cached_name` and the operating system. -/
structure Environment where
  hashString : Text → ℕ
  md5String : Text → Text
  answers : ℕ → Answer

structure State where
  env : Environment
  calls : ℕ
  trace : List Event
  heap : Ref → Task
  goHeap : Ref → GoTask
  allocated : ℕ
  tasks : ℤ → Option Ref
  nextTaskid : ℕ
  readyList : List Ref
  runningTasks : Table ℕ Ref
  finishedTasks : Table ℕ Ref
  completeList : List Ref
  workerTable : Table Key Worker
  workerTaskMap : Table ℕ Key
  workersWithAvailableResults : Table Key Key
  linkPollEnd : ℕ

abbrev M := Exec State

namespace State

def log (s : State) (e : Event) : State := { s with trace := s.trace ++ [e] }

def setTask (s : State) (r : Ref) (f : Task → Task) : State :=
  { s with heap := Function.update s.heap r (f (s.heap r)) }

def setWorker (s : State) (k : Key) (f : Worker → Worker) : State :=
  { s with workerTable := s.workerTable.alter k f }

def tick (s : State) : State :=
  ({ s with calls := s.calls + 1 } : State).log (.clock (s.env.answers s.calls).now)

end State

def ask : M Answer := do
  let s ← get
  modify (fun s ↦ { s with calls := s.calls + 1 })
  pure (s.env.answers s.calls)

def log (e : Event) : M Unit := modify (·.log e)

/-- The history keeps every reading of the clock. -/
def timestampGet : M ℕ := do
  let a ← ask
  log (.clock a.now)
  pure a.now

def task (r : Ref) : M Task := do
  let s ← get
  pure (s.heap r)

def worker (k : Key) : M Worker := do
  let s ← get
  deref (s.workerTable.lookup k)

def setTask (r : Ref) (f : Task → Task) : M Unit := modify (·.setTask r f)

def setWorker (k : Key) (f : Worker → Worker) : M Unit := modify (·.setWorker k f)

end Cyque.Queue
