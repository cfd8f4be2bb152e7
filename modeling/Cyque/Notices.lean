import Cyque.Attendance
import Cyque.Results

namespace Cyque.Notices

open Library.Execution Library.Lookup Library.Scanning Queue Api Wait Run Agreement Results Reporting
open Attention Attendance

/-- The two ends of a connection: where the master is, whether it has the
worker in its table, the worker, and what is on its way on either link. -/
structure Joint where
  phase : Phase
  table : Bool
  toWorker : List Msg
  worker : Service
  toMaster : List Text

/-- A worker that runs nothing and has no results, as every connection starts. -/
def Fresh (w : Service) : Prop :=
  w.resultsToBeSent.size = 0 ∧ w.resultsToBeSentMsg = false ∧ w.activeTasks = []

/-- An order is on its way that makes the worker start over. -/
def Ordered (x : Joint) : Prop := .sendResults (-1) ∈ x.toWorker ∨ .kill (-1) ∈ x.toWorker

/-- The notice or such an order is on its way. -/
def OnItsWay (x : Joint) : Prop := availableResults ∈ x.toMaster ∨ Ordered x

/-- What stands for the flag of the worker, by where the master is. While it
collects, the end of the answer is still to come, with the next notice behind
it. -/
def Covered (x : Joint) : Phase → Prop
  | .off => False
  | .idle => x.worker.resultsToBeSentMsg = true → x.table = true ∨ OnItsWay x
  | .collecting => .sendResults (-1) ∈ x.toWorker ∨
      ∃ us vs, x.toMaster = us ++ endLine :: vs ∧
        (x.worker.resultsToBeSentMsg = true → availableResults ∈ vs ∨ Ordered x)
  | .collected => x.worker.resultsToBeSentMsg = true → OnItsWay x

structure Sound (x : Joint) : Prop where
  told : 0 < x.worker.resultsToBeSent.size → x.worker.resultsToBeSentMsg = true
  orders : ∀ m ∈ x.toWorker, Ordinary m ∨ m = .sendResults (-1)
  covered : Covered x x.phase

variable {k : Key} {x y : Joint} {es : List Event} {p : Phase} {ms rest : List Msg} {ls : List Text}
  {w : Service}

variable {env : Environment} {s s₀ : State} {n : ℕ} {before : List Event}

/-- The actions of the master on the connection that `finishing` is about. -/
def course : List Event :=
  [.received 1 "workqueue 3 host linux x86 4".toList, .received 1 "resource workers 0 0 1 0 0".toList,
    .sent 1 (.task 1), .sent 1 (.cmd "true".toList), .sent 1 (.cores (-1)), .sent 1 (.memory (-1)),
    .sent 1 (.disk (-1)), .sent 1 (.gpus (-1)), .sent 1 .end, .received 1 availableResults, .noted 1,
    .sent 1 (.sendResults (-1)), .received 1 "result 7 0 0 1".toList, .received 1 endLine, .forgot 1,
    .sent 1 (.kill 1)]

def description : List Msg :=
  [.task 1, .cmd "true".toList, .cores (-1), .memory (-1), .disk (-1), .gpus (-1), .end]

end Cyque.Notices
