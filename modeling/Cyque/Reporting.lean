import Cyque.Worker

namespace Cyque.Reporting

open Library.Lookup Library.Scanning Queue Worker

structure Ending where
  taskid : ℕ
  status : ℤ
  outputLength : ℕ
  executionTime : ℕ

/-- What a worker keeps about the tasks of its master. Both tables of started
tasks are one list here. -/
structure Service where
  waitingTasks : List ℕ
  activeTasks : List ℕ
  resultsToBeSent : Table ℕ Ending
  resultsToBeSentMsg : Bool

def availableResults : Text := "available_results".toList

def endLine : Text := "end".toList

/-- The standard output of the task follows its line. -/
def reportTaskComplete (e : Ending) : Text :=
  "result ".toList ++ showInt e.status ++ ' ' :: showInt e.outputLength ++ ' ' ::
    showInt e.executionTime ++ ' ' :: showInt e.taskid

/-- The lines that are written, and what is left to be sent. -/
def reportTasks (maxCount : ℤ) (w : Service) : List Text × Service :=
  let count := if maxCount < 0 then w.resultsToBeSent.size else maxCount.toNat
  let popped := w.resultsToBeSent.entries.take count
  let left := (popped.map Prod.fst).foldl Table.remove w.resultsToBeSent
  (popped.map (fun e ↦ reportTaskComplete e.2) ++ [endLine],
    { w with
      resultsToBeSent := left
      resultsToBeSentMsg := if left.size = 0 then false else w.resultsToBeSentMsg })

/-- The flag stays as it is, also when no result is left. -/
def doKill (taskid : ℕ) (w : Service) : Service :=
  { w with
    resultsToBeSent := w.resultsToBeSent.remove taskid
    activeTasks := w.activeTasks.erase taskid }

def killAllTasks (w : Service) : Service :=
  { w with
    resultsToBeSent := (w.resultsToBeSent.keys).foldl Table.remove w.resultsToBeSent
    resultsToBeSentMsg := false
    activeTasks := [] }

/-- The lines between `task` and `end`. -/
def Describes : Msg → Prop
  | .cmd _ | .cores _ | .memory _ | .disk _ | .gpus _ | .dir _ | .infile _ _ _ | .outfile _ _ _ => True
  | _ => False

/-- The tasks in `exited` are found to have ended. -/
def handleTasks (exited : List Ending) (w : Service) : Service :=
  { w with
    activeTasks := w.activeTasks.filter (fun i ↦ i ∉ exited.map Ending.taskid)
    resultsToBeSent := exited.foldl (fun t e ↦ t.insert e.taskid e) w.resultsToBeSent }

/-- The master is told once that there are results. -/
def announce (w : Service) : List Text × Service :=
  if !w.resultsToBeSentMsg ∧ 0 < w.resultsToBeSent.size then
    ([availableResults], { w with resultsToBeSentMsg := true })
  else ([], w)

def startTasks (started : List ℕ) (w : Service) : Service :=
  { w with
    waitingTasks := w.waitingTasks.diff started
    activeTasks := w.activeTasks ++ started }

variable {w w' : Service} {ms : List Msg} {ls : List Text}

end Cyque.Reporting
