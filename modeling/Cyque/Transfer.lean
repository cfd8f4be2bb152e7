import Cyque.Messages
import Cyque.Files

namespace Cyque.Transfer

open Library.Execution Library.Lookup Library.Scanning Queue Link Files Workers Messages

abbrev success : ℤ := 1
abbrev workerFailure : ℤ := 0
abbrev appFailure : ℤ := -1

def mark (bit : ℕ) (t : Task) : Task := { t with result := t.result ||| bit }

def giveUp (k : Key) (localname remotename : Text) (flags : ℤ) : M (ℤ × ℤ) := do
  log (.inaccessible k localname remotename flags)
  pure (appFailure, 0)

/-- The result, and the number of bytes that went out. -/
def sendFile (k : Key) (localname remotename : Text) (offset length flags : ℤ) : M (ℤ × ℤ) := do
  match (← ask).stat with
  | none => giveUp k localname remotename flags
  | some info =>
    let length := if length = 0 then (info.size : ℤ) else length
    if (← ask).opened then
      if 0 ≤ offset ∧ offset + length ≤ info.size then
        if (← ask).opened then
          let _ ← sendWorkerMsg k
            (.put remotename length ((info.mode ||| 0o600) &&& 0o777) flags)
          let actual ← linkStreamFromFd k length
          log (.streamed k localname remotename length actual)
          pure (if actual = length then success else workerFailure, actual)
        else giveUp k localname remotename flags
      else giveUp k localname remotename flags
    else giveUp k localname remotename flags

def isDot (name : Text) : Bool := name = ".".toList ∨ name = "..".toList

def below (dir name : Text) : Text := dir ++ '/' :: name

def sendEntry (k : Key) (descend : Text → Text → M (ℤ × ℤ)) (localpath remotepath : Text)
    (flags : ℤ) : M (ℤ × ℤ) := do
  match (← ask).stat with
  | none => giveUp k localpath remotepath flags
  | some info =>
    if info.isDir then descend localpath remotepath
    else sendFile k localpath remotepath 0 0 flags

/-- The entries of a directory up to the first one that fails. -/
def sendEntries (k : Key) (descend : Text → Text → M (ℤ × ℤ)) (dirname remotedirname : Text)
    (flags : ℤ) : List Text → M (ℤ × ℤ)
  | [] => pure (success, 0)
  | d :: ds =>
    if isDot d then sendEntries k descend dirname remotedirname flags ds
    else do
      let sent ← sendEntry k descend (below dirname d) (below remotedirname d) flags
      if sent.1 ≠ success then pure sent
      else
        let rest ← sendEntries k descend dirname remotedirname flags ds
        pure (rest.1, sent.2 + rest.2)

def sendDirectory (k : Key) (flags : ℤ) : ℕ → Text → Text → M (ℤ × ℤ)
  | 0, _, _ => exceeded
  | depth + 1, dirname, remotedirname => do
    let a ← ask
    if a.opened then
      log (.listed k remotedirname a.names)
      sendEntries k (sendDirectory k flags depth) dirname remotedirname flags a.names
    else giveUp k dirname remotedirname flags

def cachedName (f : File) : M Text := do
  let s ← get
  pure (makeCachedName s.env.md5String f)

def remember (k : Key) (name : Text) (info : Stat) : M Unit :=
  setWorker k (fun w ↦ { w with currentFiles := w.currentFiles.insertNew name info })

def forget (k : Key) (name : Text) : M Unit :=
  setWorker k (fun w ↦ { w with currentFiles := w.currentFiles.remove name })

def transmit (k : Key) (f : File) (info : Stat) (localName name : Text) : M (ℤ × ℤ) :=
  if info.isDir then recurse (fun depth ↦ sendDirectory k f.flags depth localName name)
  else sendFile k localName name f.offset f.pieceLength f.flags

/-- A result that is not zero counts as sent here, also the one of a file that
could not be read. -/
def sendFileOrDirectory (k : Key) (f : File) (expandedLocalName : Text) : M (ℤ × ℤ) := do
  match (← ask).stat with
  | none => pure (appFailure, 0)
  | some info =>
    let name ← cachedName f
    let w ← worker k
    let remote := w.currentFiles.lookup name
    if remote.any (fun i ↦ i.mtime = info.mtime ∧ i.size = info.size) then pure (success, 0)
    else
      forget k name
      let sent ← transmit k f info expandedLocalName name
      when (sent.1 ≠ 0 ∧ flagSet f.flags cache) (remember k name info)
      pure sent

/-- An empty directory is part of the description of the task only. -/
def sendContent (k : Key) (f : File) (w : Worker) : M (ℤ × ℤ) :=
  match f.type with
  | .directory => pure (success, 0)
  | .file => sendFileOrDirectory k f (expandEnvnames w.os w.arch f.payload)

def chargeWorker (bytes : ℤ) (elapsed : ℕ) (w : Worker) : Worker :=
  { w with
    totalBytesTransferred := w.totalBytesTransferred + bytes
    totalTransferTime := (w.totalTransferTime + elapsed) % 2 ^ 64 }

def chargeSent (bytes : ℤ) (elapsed : ℕ) (t : Task) : Task :=
  { t with
    totalBytesSent := t.totalBytesSent + bytes
    totalBytesTransferred := t.totalBytesTransferred + bytes
    totalTransferTime := (t.totalTransferTime + elapsed) % 2 ^ 64 }

def chargeReceived (bytes : ℤ) (elapsed : ℕ) (t : Task) : Task :=
  { t with
    totalBytesReceived := t.totalBytesReceived + bytes
    totalBytesTransferred := t.totalBytesTransferred + bytes
    totalTransferTime := (t.totalTransferTime + elapsed) % 2 ^ 64 }

def sendInputFile (k : Key) (r : Ref) (f : File) : M ℤ := do
  let openTime ← timestampGet
  let w ← worker k
  let sent ← sendContent k f w
  if sent.1 = success then
    let closeTime ← timestampGet
    let elapsed := stamp (closeTime - openTime)
    setTask r (chargeSent sent.2 elapsed)
    setWorker k (chargeWorker sent.2 elapsed)
    pure sent.1
  else
    when (sent.1 = appFailure) (setTask r (mark inputMissing))
    pure sent.1

def inputsExist : List File → M Bool
  | [] => pure true
  | f :: fs => do
    if f.type = .file then
      if (← ask).stat.isNone then pure false else inputsExist fs
    else inputsExist fs

def sendEachInput (k : Key) (r : Ref) : List File → M ℤ
  | [] => pure success
  | f :: fs => do
    let result ← sendInputFile k r f
    if result ≠ success then pure result else sendEachInput k r fs

def sendInputFiles (k : Key) (r : Ref) : M ℤ := do
  let t ← task r
  if ← inputsExist t.inputFiles then sendEachInput k r t.inputFiles
  else
    setTask r (mark inputMissing)
    pure appFailure

/-- One file of an answer: the result, and what is kept of it in the history.
Its parent directory is made first, where the local name has one. -/
def getFile (k : Key) (path localName : Text) (length : ℤ) : M (ℤ × Entry) := do
  let parent ← ask
  let file ← ask
  if ('/' ∈ localName → parent.opened) ∧ file.opened then
    let actual ← linkStreamToFd k length
    pure (if actual = length then success else workerFailure, .file path localName length true actual)
  else
    linkSoak k length
    pure (appFailure, .file path localName length false 0)

inductive Reply
  | dir (path : Text)
  | file (path : Text) (length : ℤ)
  | missing (path : Text)
  | end
  | invalid
deriving DecidableEq

/-- The lines of an answer, by the formats that `get_file_or_directory` tries
in turn. -/
def parseReply (line : Text) : Reply :=
  match (sscanf line (lits "dir" ++ [.space, .word])).values with
  | [.word path] => .dir path
  | _ =>
    match (sscanf line (lits "file" ++ [.space, .word, .space, .int64])).values with
    | [.word path, .int length] => .file path length
    | _ =>
      match (sscanf line (lits "missing" ++ [.space, .word, .space, .int32])).values with
      | [.word path, .int _] => .missing path
      | _ => if line = "end".toList then .end else .invalid

/-- The local name under which an entry is stored: the requested name is
chopped off the path, whatever it is. A path that is shorter leaves the bytes
behind its end. -/
def localNameOf (payload name path leftover : Text) : Text :=
  payload ++ if name.length ≤ path.length then path.drop name.length else leftover

structure Retrieval where
  result : ℤ
  totalBytes : ℤ
  entries : List Entry

def getEntry (k : Key) (r : Ref) (f : File) (name : Text) (g : Retrieval) :
    M (Retrieval ⊕ Retrieval) := do
  let m ← recvWorkerMsgRetry k
  if m.1 < 0 then pure (.inr { g with result := workerFailure })
  else
    match parseReply m.2 with
    | .dir path =>
      let a ← ask
      let localName := localNameOf f.payload name path a.leftover
      let g : Retrieval := { g with entries := g.entries ++ [.dir path localName a.opened] }
      if a.opened then pure (.inl { g with result := success })
      else pure (.inr { g with result := appFailure })
    | .file path length =>
      let localName := localNameOf f.payload name path (← ask).leftover
      let got ← getFile k path localName length
      let g : Retrieval :=
        { result := got.1
          totalBytes := g.totalBytes + if got.1 = success then length else 0
          entries := g.entries ++ [got.2] }
      if got.1 = workerFailure then pure (.inr g) else pure (.inl g)
    | .missing path =>
      setTask r (mark outputMissing)
      pure (.inl { g with entries := g.entries ++ [.missing path] })
    | .end => pure (.inr g)
    | .invalid => pure (.inr { g with result := workerFailure })

def getFileOrDirectory (k : Key) (r : Ref) (f : File) (name : Text) : M (ℤ × ℤ) := do
  let _ ← sendWorkerMsg k (.get name)
  let g ← loop (getEntry k r f name) ⟨success, 0, []⟩
  when (g.result = appFailure) (setTask r (mark outputMissing))
  log (.replied k r f name g.entries g.result)
  pure (g.result, g.totalBytes)

def rememberOutput (k : Key) (name : Text) : M Unit := do
  match (← ask).stat with
  | some info => remember k name info
  | none => pure ()

/-- A result that is not zero counts as retrieved here, also the one of an
output that could not be stored. -/
def getOutputFile (k : Key) (r : Ref) (f : File) : M ℤ := do
  let name ← cachedName f
  let openTime ← timestampGet
  let got ← getFileOrDirectory k r f name
  let closeTime ← timestampGet
  let elapsed := stamp (closeTime - openTime)
  when (0 < got.2) (do
    setTask r (chargeReceived got.2 elapsed)
    setWorker k (chargeWorker got.2 elapsed))
  when (got.1 ≠ 0 ∧ flagSet f.flags cache) (rememberOutput k name)
  pure got.1

def getEachOutput (k : Key) (r : Ref) : ℤ → List File → M ℤ
  | result, [] => pure result
  | _, f :: fs => do
    let result ← getOutputFile k r f
    if result = workerFailure then pure result else getEachOutput k r result fs

def getOutputFiles (k : Key) (r : Ref) : M ℤ := do
  let t ← task r
  let result ← getEachOutput k r success t.outputFiles
  let _ ← sendWorkerMsg k (.kill t.taskid)
  pure result

def deleteWorkerFiles (k : Key) (exceptFlags : ℕ) (files : List File) : M Unit :=
  forEach (fun f ↦ when (¬ flagSet f.flags exceptFlags) (do
    let name ← cachedName f
    let _ ← sendWorkerMsg k (.unlink name)
    forget k name)) files

def deleteTaskOutputFiles (k : Key) (r : Ref) : M Unit := do
  let t ← task r
  deleteWorkerFiles k 0 t.outputFiles

def deleteUncacheableFiles (k : Key) (r : Ref) : M Unit := do
  let t ← task r
  deleteWorkerFiles k (cache ||| preexist) t.inputFiles
  deleteWorkerFiles k (cache ||| preexist) t.outputFiles

end Cyque.Transfer
