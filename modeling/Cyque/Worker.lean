import Cyque.Transfer

namespace Cyque.Worker

open Library.Scanning Queue Link Files Transfer

/-- What a worker finds in its cache. The size of a file fits a signed number
of 64 bits; what cannot be examined or opened is known by its error. -/
inductive Node
  | file (content : Text) (h : content.length < 2 ^ 63)
  | directory (entries : List (Text × Node))
  | inaccessible (errnum : ℕ)

/-- One message of the answer to a `get`. The content of a file follows its
line. -/
inductive Piece
  | dir (path : Text)
  | file (path content : Text) (h : content.length < 2 ^ 63)
  | missing (path : Text) (errnum : ℕ)

namespace Piece

def path : Piece → Text
  | .dir path => path
  | .file path _ _ => path
  | .missing path _ => path

def line : Piece → Text
  | .dir path => "dir ".toList ++ path ++ " 0".toList
  | .file path content _ => "file ".toList ++ path ++ ' ' :: showInt content.length
  | .missing path errnum => "missing ".toList ++ path ++ ' ' :: showInt errnum

def content : Piece → Text
  | .file _ content _ => content
  | _ => []

def text (p : Piece) : Text := p.line ++ '\n' :: p.content

end Piece

mutual

def streamOutputItem (filename : Text) : Node → List Piece
  | .file content h => [.file filename content h]
  | .directory entries => .dir filename :: streamEntries filename entries
  | .inaccessible errnum => [.missing filename errnum]

/-- The entries of a directory in the order of `readdir`. The result for one of
them does not matter for the next. -/
def streamEntries (filename : Text) : List (Text × Node) → List Piece
  | [] => []
  | (name, node) :: entries =>
    if isDot name then streamEntries filename entries
    else streamOutputItem (below filename name) node ++ streamEntries filename entries

end

def doGet (filename : Text) (node : Node) : Text :=
  (streamOutputItem filename node).flatMap Piece.text ++ "end\n".toList

/-- The variables of `do_task` that keep their contents from line to line. -/
structure Scratch where
  filename : Text
  taskname : Text
  flags : ℤ
  n : ℤ

def Scratch.assign (v : Scratch) : List Value → Scratch
  | [.word a] => { v with filename := a }
  | [.word a, .word b] => { v with filename := a, taskname := b }
  | [.word a, .word b, .int i] => { v with filename := a, taskname := b, flags := i }
  | [.int i] => { v with n := i }
  | _ => v

/-- A line of the description of a task, with the values read from it. -/
inductive Order
  | cmd (length : ℤ)
  | infile (vs : List Value)
  | outfile (vs : List Value)
  | dir (vs : List Value)
  | cores (vs : List Value)
  | memory (vs : List Value)
  | disk (vs : List Value)
  | gpus (vs : List Value)
  | end
  | invalid

/-- The formats that `do_task` tries in turn. All but the first count as read
when `sscanf` returns anything but zero, also for `EOF`. -/
def parseOrder (line : Text) : Order :=
  let infile := sscanf line (lits "infile" ++ [.space, .word, .space, .word, .space, .int32])
  let outfile := sscanf line (lits "outfile" ++ [.space, .word, .space, .word, .space, .int32])
  let dir := sscanf line (lits "dir" ++ [.space, .word])
  let cores := sscanf line (lits "cores" ++ [.space, .int32])
  let memory := sscanf line (lits "memory" ++ [.space, .int32])
  let disk := sscanf line (lits "disk" ++ [.space, .int32])
  let gpus := sscanf line (lits "gpus" ++ [.space, .int32])
  match (sscanf line (lits "cmd" ++ [.space, .int32])).values with
  | [.int length] => .cmd length
  | _ =>
    if infile.count ≠ 0 then .infile infile.values
    else if outfile.count ≠ 0 then .outfile outfile.values
    else if dir.count ≠ 0 then .dir dir.values
    else if cores.count ≠ 0 then .cores cores.values
    else if memory.count ≠ 0 then .memory memory.values
    else if disk.count ≠ 0 then .disk disk.values
    else if gpus.count ≠ 0 then .gpus gpus.values
    else if line = "end".toList then .end
    else .invalid

def setTaskUnlabelFlag (t : Task) : Task :=
  if t.cores < 0 ∧ t.memory < 0 ∧ t.disk < 0 ∧ t.gpus < 0 then { t with unlabeled := true } else t

def specifyResource (set : ℤ → Task → Task) (n : ℤ) (t : Task) : Task :=
  setTaskUnlabelFlag (if n < 0 then set (-1) t else { set n t with unlabeled := false })

def workQueueTaskSpecifyCores : ℤ → Task → Task := specifyResource (fun n t ↦ { t with cores := n })

def workQueueTaskSpecifyMemory : ℤ → Task → Task := specifyResource (fun n t ↦ { t with memory := n })

def workQueueTaskSpecifyDisk : ℤ → Task → Task := specifyResource (fun n t ↦ { t with disk := n })

def workQueueTaskSpecifyGpus : ℤ → Task → Task := specifyResource (fun n t ↦ { t with gpus := n })

/-- For an input that is not taken recursively. -/
def workQueueTaskSpecifyDirectory (t : Task) (localName remoteName : Text) (flags : ℤ) : Option Task :=
  if remoteName.head? = some '/' then none
  else if t.inputFiles.any (fun f ↦ f.remoteName = remoteName) then none
  else
    some { t with
      inputFiles := t.inputFiles ++ [workQueueFileCreate remoteName .directory flags localName] }

/-- A description as far as it has been read. -/
structure Reading where
  task : Task
  scratch : Scratch

/-- A file or directory that is not accepted is left out. -/
def follow (st : Reading) : Order → Reading
  | .infile vs =>
    let v := st.scratch.assign vs
    ⟨(workQueueTaskSpecifyFile st.task ("cache/".toList ++ v.filename) v.taskname .input v.flags).getD
      st.task, v⟩
  | .outfile vs =>
    let v := st.scratch.assign vs
    ⟨(workQueueTaskSpecifyFile st.task ("cache/".toList ++ v.filename) v.taskname .output v.flags).getD
      st.task, v⟩
  | .dir vs =>
    let v := st.scratch.assign vs
    ⟨(workQueueTaskSpecifyDirectory st.task v.filename v.filename 0o700).getD st.task, v⟩
  | .cores vs => ⟨workQueueTaskSpecifyCores (st.scratch.assign vs).n st.task, st.scratch.assign vs⟩
  | .memory vs => ⟨workQueueTaskSpecifyMemory (st.scratch.assign vs).n st.task, st.scratch.assign vs⟩
  | .disk vs => ⟨workQueueTaskSpecifyDisk (st.scratch.assign vs).n st.task, st.scratch.assign vs⟩
  | .gpus vs => ⟨workQueueTaskSpecifyGpus (st.scratch.assign vs).n st.task, st.scratch.assign vs⟩
  | .cmd _ | .end | .invalid => st

/-- The loop of `do_task`, over at most so many lines. Nothing is returned for
a line that is invalid. -/
def readTask : ℕ → Reading → Text → Option (Task × Text)
  | 0, _, _ => none
  | lines + 1, st, text =>
    match readline workQueueLineMax text with
    | (none, rest) => some (st.task, rest)
    | (some line, rest) =>
      match parseOrder (cString line) with
      | .cmd length =>
        let command := cString (rest.take length.toNat)
        readTask lines { st with task := { st.task with commandLine := command } }
          (rest.drop length.toNat)
      | .end => some (st.task, rest)
      | .invalid => none
      | order => readTask lines (follow st order) rest

/-- The task and what is left of the text. `v` is what the variables happen to
hold. -/
def doTask (v : Scratch) (taskid : ℤ) (text : Text) : Option (Task × Text) :=
  readTask (text.length + 1) ⟨{ workQueueTaskCreate [] with taskid := taskid.toNat }, v⟩ text

def handleTask (v : Scratch) (text : Text) : Option (Task × Text) :=
  match readline workQueueLineMax text with
  | (none, _) => none
  | (some line, rest) =>
    match (sscanf (cString line) (lits "task" ++ [.space, .int64])).values with
    | [.int taskid] => doTask v (wrap taskid) rest
    | _ => none

end Cyque.Worker
