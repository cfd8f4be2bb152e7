import Cyque.Reporting
import Mathlib.Logic.Relation

namespace Cyque.Jobs

open Library.Lookup Library.Scanning Queue Worker Reporting

inductive Kind
  | cores
  | memory
  | disk
  | gpus
deriving DecidableEq

abbrev Amounts := Kind → ℤ

def amounts (t : Task) : Amounts
  | .cores => t.cores
  | .memory => t.memory
  | .disk => t.disk
  | .gpus => t.gpus

/-- A task that was started; `pid` is 0 when it has no process. Its output is
looked at when it is reported. -/
structure TaskInfo where
  task : Task
  pid : ℕ
  status : ℤ
  outputLength : ℕ
  executionStart : ℕ
  executionEnd : ℕ

def TaskInfo.taskid (ti : TaskInfo) : ℕ := ti.task.taskid

/-- What happened to a task, for the record. It is `displaced` when another one
is entered in a table in its place. -/
inductive Deed
  | received (t : Task)
  | started (ti : TaskInfo)
  | lost (t : Task)
  | displaced (ti : TaskInfo)
  | ended (ti : TaskInfo)
  | reported (ti : TaskInfo)
  | forgotten (ti : TaskInfo)
  | killed (ti : TaskInfo)
  | cleared

/-- The variables of the worker that are about its tasks. `total` is what was
last measured of each resource; `dead` is set when the worker kills itself. -/
structure Site where
  total : Amounts
  allocated : Amounts
  activeTasks : Table ℕ TaskInfo
  storedTasks : Table ℕ TaskInfo
  waitingTasks : List Task
  resultsToBeSent : Table ℕ TaskInfo
  resultsToBeSentMsg : Bool
  abortFlag : Bool
  dead : Bool
  history : List Deed

def newSite (total : Amounts) : Site :=
  ⟨total, fun _ ↦ 0, .empty id, .empty id, [], .empty id, false, false, false, []⟩

namespace Site

def log (w : Site) (d : Deed) : Site := { w with history := w.history ++ [d] }

def allocate (w : Site) (a : Amounts) : Site := { w with allocated := fun k ↦ w.allocated k + a k }

def deallocate (w : Site) (a : Amounts) : Site := { w with allocated := fun k ↦ w.allocated k - a k }

/-- An entry of a table is overwritten, if there is one. -/
def displace (w : Site) : Option TaskInfo → Site
  | none => w
  | some ti => w.log (.displaced ti)

end Site

def taskids (t : Table ℕ TaskInfo) : List ℕ := t.values.map TaskInfo.taskid

def present (w : Site) : List ℕ :=
  w.waitingTasks.map Task.taskid ++ taskids w.activeTasks ++ taskids w.resultsToBeSent

/-- A resource update: what was measured for it, and the lines that are sent. -/
structure Update where
  total : Amounts
  lines : List Text

def sendResourceUpdate (u : Update) (w : Site) : List Text × Site := (u.lines, { w with total := u.total })

/-- What a task takes. One that does not say takes the whole worker; the totals
are divided by one worker, in floating point, but far below where that rounds. -/
def needs (total : Amounts) (t : Task) : Amounts :=
  if t.cores < 0 ∧ t.memory < 0 ∧ t.disk < 0 ∧ t.gpus < 0 then
    fun k ↦ max (total k) (if k = .cores then 1 else 0)
  else fun k ↦ max (amounts t k) 0

def checkForResources (t : Task) (w : Site) : Bool :=
  [.cores, .memory, .disk, .gpus].all (fun k ↦ w.allocated k + needs w.total t k ≤ w.total k)

def specifyAmounts (a : Amounts) (t : Task) : Task :=
  { t with cores := a .cores, memory := a .memory, disk := a .disk, gpus := a .gpus }

/-- What `task_info_execute` comes to: there is no file for the output, `fork`
failed, or the task has a process. -/
inductive Executed
  | unopened
  | failed
  | running (pid now : ℕ)

def enterTask (ti : TaskInfo) (w : Site) : Site :=
  let w := (w.allocate (amounts ti.task)).displace (w.activeTasks.lookup ti.pid)
  { w with
    storedTasks := w.storedTasks.insert ti.taskid ti
    activeTasks := w.activeTasks.insert ti.pid ti }.log (.started ti)

/-- A task without a file for its output is entered all the same, as process 0. -/
def startTask (executed : Executed) (t : Task) (w : Site) : Site :=
  let task := specifyAmounts (needs w.total t) t
  match executed with
  | .failed => { w with abortFlag := true }.log (.lost t)
  | .unopened => enterTask ⟨task, 0, 0, 0, 0, 0⟩ w
  | .running pid now => enterTask ⟨task, pid, 0, 0, now, 0⟩ w

/-- The environment of the loop that starts tasks. The process of a new task is
none of those that have not been waited for. -/
structure Starting where
  execute : List ℕ → ℕ → Executed
  update : ℕ → Update
  fresh : ∀ used i pid now, execute used i = .running pid now → pid ≠ 0 ∧ pid ∉ used

/-- The loop over the waiting tasks, of which `n` are still to be visited; `i`
have been started. A task that does not fit goes to the end. -/
def startWaiting (a : Starting) : ℕ → ℕ → Site → List Text × Site
  | 0, _, w => ([], w)
  | n + 1, i, w =>
    if w.allocated .cores < w.total .cores then
      match w.waitingTasks with
      | [] => ([], w)
      | t :: ts =>
        if checkForResources t w then
          let executed := a.execute w.activeTasks.keys i
          let sent := sendResourceUpdate (a.update i) (startTask executed t { w with waitingTasks := ts })
          let rest := startWaiting a n (i + 1) sent.2
          (sent.1 ++ rest.1, rest.2)
        else startWaiting a n i { w with waitingTasks := ts ++ [t] }
    else ([], w)

/-- What `wait4` answers for a process, with the length of the output then and
the time. -/
inductive Waited
  | running
  | error
  | exited (status outputLength now : ℕ)
  | signaled (signal outputLength now : ℕ)

/-- The first process of a traversal that is not running, and how many were
asked for. -/
def firstEnded (wait : ℕ → Waited) : ℕ → List (ℕ × TaskInfo) → ℕ × Option (TaskInfo × Waited)
  | i, [] => (i, none)
  | i, (_, ti) :: es =>
    match wait i with
    | .running => firstEnded wait (i + 1) es
    | a => (i + 1, some (ti, a))

/-- The task is no longer active, and its result is kept. -/
def endTask (ti : TaskInfo) (status : ℤ) (outputLength now : ℕ) (w : Site) : Site :=
  let ti' := { ti with status := status, outputLength := outputLength, executionEnd := now }
  let w := w.displace (w.resultsToBeSent.lookup ti.taskid)
  { w with
    activeTasks := w.activeTasks.remove ti.pid
    storedTasks := w.storedTasks.remove ti.taskid
    resultsToBeSent := w.resultsToBeSent.insert ti.taskid ti' }.log (.ended ti')

/-- The traversal of the active tasks starts over when one of them ended. An
error leaves the worker; for process 0 any child in the group of the worker is
waited for. -/
def handleTasks (wait : ℕ → Waited) : ℕ → ℕ → Site → Bool × Site
  | 0, _, w => (true, w)
  | n + 1, i, w =>
    match firstEnded wait i w.activeTasks.entries with
    | (_, none) => (true, w)
    | (j, some (ti, .exited status length now)) => handleTasks wait n j (endTask ti status length now w)
    | (j, some (ti, .signaled signal length now)) => handleTasks wait n j (endTask ti signal length now w)
    | (_, some (_, _)) => (false, { w with abortFlag := true })

/-- A task without a process is reported as its description says. -/
def TaskInfo.ending (ti : TaskInfo) : Ending :=
  if ti.pid = 0 then
    ⟨ti.taskid, ti.task.returnStatus, (ti.task.output.map List.length).getD 0, ti.task.cmdExecutionTime⟩
  else ⟨ti.taskid, ti.status, ti.outputLength, stamp (ti.executionEnd - ti.executionStart)⟩

/-- Only a task with a process gives back what it took. -/
def reportTaskComplete (ti : TaskInfo) (w : Site) : List Text × Site :=
  let w := if ti.pid = 0 then w else w.deallocate (amounts ti.task)
  ([Reporting.reportTaskComplete ti.ending], w.log (.reported ti))

/-- The loop of `report_tasks`, over at most `n` results. -/
def reportEach : ℕ → Site → List Text × Site
  | 0, w => ([], w)
  | n + 1, w =>
    match w.resultsToBeSent.entries with
    | [] => ([], w)
    | (taskid, ti) :: _ =>
      let sent := reportTaskComplete ti { w with resultsToBeSent := w.resultsToBeSent.remove taskid }
      let rest := reportEach n sent.2
      (sent.1 ++ rest.1, rest.2)

def reportTasks (update : Update) (maxCount : ℤ) (w : Site) : List Text × Site :=
  let count := if maxCount < 0 then w.resultsToBeSent.size else maxCount.toNat
  let reported := reportEach count w
  let w := reported.2
  let w := { w with resultsToBeSentMsg := if w.resultsToBeSent.size = 0 then false else w.resultsToBeSentMsg }
  let sent := sendResourceUpdate update w
  (reported.1 ++ [endLine] ++ sent.1, sent.2)

/-- The result of a task that ended is dropped, and what it took is not given
back. -/
def forgetResult (taskid : ℕ) (w : Site) : Site :=
  match w.resultsToBeSent.lookup taskid with
  | none => w
  | some ti => { w with resultsToBeSent := w.resultsToBeSent.remove taskid }.log (.forgotten ti)

/-- The signal goes to the group of the process; for process 0 that is the group
of the worker. -/
def killTask (ti : TaskInfo) (w : Site) : Site :=
  if ti.pid = 0 then { w with dead := true }
  else
    let w := { w with
      storedTasks := w.storedTasks.remove ti.taskid
      activeTasks := w.activeTasks.remove ti.pid }
    (w.deallocate (amounts ti.task)).log (.killed ti)

/-- A task that waits is not looked for. -/
def doKill (taskid : ℕ) (w : Site) : Site :=
  let w := forgetResult taskid w
  match w.storedTasks.lookup taskid with
  | none => w
  | some ti =>
    if (w.activeTasks.lookup ti.pid).isSome then killTask ti w
    else { w with storedTasks := w.storedTasks.remove taskid }

def doResetResultsToBeSent (w : Site) : Site :=
  w.resultsToBeSent.keys.foldl (fun w i ↦ forgetResult i w) { w with resultsToBeSentMsg := false }

def reapTask (w : Site) (e : ℕ × TaskInfo) : Site :=
  { w with
    activeTasks := w.activeTasks.remove e.1
    storedTasks := w.storedTasks.remove e.2.taskid }.log (.killed e.2)

def killAllTasks (w : Site) : Site :=
  let w := doResetResultsToBeSent w
  if w.activeTasks.values.any (fun ti ↦ ti.pid = 0) then { w with dead := true }
  else
    let w := w.activeTasks.entries.foldl reapTask w
    { w with
      storedTasks := w.storedTasks.keys.foldl Table.remove w.storedTasks
      allocated := fun _ ↦ 0 }.log .cleared

/-- What `handle_master` finds: the line it reads, and what became of it where
files are concerned. -/
inductive Request
  | inactive
  | closed
  | task (description : Option Task) (linked : Bool)
  | file (answer : List Text) (ok : Bool)
  | kill (taskid : ℤ)
  | release
  | exit
  | check
  | reset (ok : Bool)
  | auth
  | sendResults (n : ℤ)
  | unrecognized

/-- Whether the connection stays, the lines that are written, and the worker. -/
def handleMaster (update : Update) (w : Site) : Request → Bool × List Text × Site
  | .inactive => (true, [], w)
  | .task none _ => (false, [], w)
  | .task (some t) linked =>
    let sent := sendResourceUpdate update w
    if linked then
      (true, sent.1, { sent.2 with waitingTasks := sent.2.waitingTasks ++ [t] }.log (.received t))
    else (false, sent)
  | .file answer ok => (ok, answer, w)
  | .kill taskid =>
    let w := if 0 ≤ taskid then doKill taskid.toNat w else killAllTasks w
    (!w.dead, [], w)
  | .check => (true, ["alive".toList], w)
  | .reset ok => (ok && !(killAllTasks w).dead, [], killAllTasks w)
  | .sendResults n => (true, reportTasks update n w)
  | .closed | .release | .exit | .auth | .unrecognized => (false, [], w)

/-- The master is told once that there are results. -/
def announce (w : Site) : List Text × Site :=
  if !w.resultsToBeSentMsg ∧ 0 < w.resultsToBeSent.size then
    ([availableResults], { w with resultsToBeSentMsg := true })
  else ([], w)

/-- What the environment does during an iteration. `periodic` is the update that
may be due, `diskAvailable` whether there is enough space. -/
structure Turn where
  periodic : Option Update
  request : Request
  forced : Update
  wait : ℕ → Waited
  diskAvailable : Bool
  starting : Starting

/-- An iteration of the loop of `work_for_master` up to where it starts tasks:
whether the connection is still up, the lines that were written, and the worker. -/
def attend (a : Turn) (w : Site) : Bool × List Text × Site :=
  let sent := (a.periodic.map (fun u ↦ sendResourceUpdate u w)).getD ([], w)
  let handled := handleMaster a.forced sent.2 a.request
  let waited := handleTasks a.wait (handled.2.2.activeTasks.size + 1) 0 handled.2.2
  let told := announce waited.2
  (handled.1 && waited.1 && a.diskAvailable, sent.1 ++ handled.2.1 ++ told.1, told.2)

/-- The worker gives up its master when it has tasks and can run none. -/
def iteration (a : Turn) (w : Site) : Bool × List Text × Site :=
  let attended := attend a w
  if attended.1 then
    let w := attended.2.2
    let started := startWaiting a.starting w.waitingTasks.length 0 w
    (!(decide (0 < started.2.waitingTasks.length) && started.2.storedTasks.size == 0),
      attended.2.1 ++ started.1, started.2)
  else attended

/-- The worker as its next master finds it. The tasks that wait stay. -/
def disconnectMaster (w : Site) : Site := killAllTasks w

/-- What is relied on in a run: `measured` holds of the totals, `sent` of the
numbers of the tasks that the worker has and of the one that it receives, and
under `opened` there is a file for the output of every task. -/
structure Terms where
  measured : Amounts → Prop
  sent : List ℕ → ℕ → Prop
  opened : Prop

structure Turn.Meets (T : Terms) (w : Site) (a : Turn) : Prop where
  periodic : ∀ u, a.periodic = some u → T.measured u.total
  forced : T.measured a.forced.total
  starting : ∀ i, T.measured (a.starting.update i).total
  sent : ∀ t, a.request = .task (some t) true → T.sent (present w) t.taskid
  opened : T.opened → ∀ used i, a.starting.execute used i ≠ .unopened

/-- The states of a worker between the iterations of its loop, from master to
master, while it lives. It may leave its master at any time. -/
inductive Employed (T : Terms) : Site → Prop
  | start {total : Amounts} (hp : T.measured total) : Employed T (newSite total)
  | stay {w : Site} {a : Turn} (h : Employed T w) (ha : a.Meets T w) (hf : w.abortFlag = false)
      (hup : (iteration a w).1 = true) : Employed T (iteration a w).2.2
  | leave {w : Site} {a : Turn} (h : Employed T w) (ha : a.Meets T w) (hf : w.abortFlag = false)
      (hdown : (iteration a w).1 = false) (hd : (disconnectMaster (iteration a w).2.2).dead = false) :
      Employed T (disconnectMaster (iteration a w).2.2)
  | volatile {w : Site} (h : Employed T w) (hf : w.abortFlag = false) (hd : (disconnectMaster w).dead = false) :
      Employed T (disconnectMaster w)
  | connect {w : Site} {u : Update} (h : Employed T w) (hu : T.measured u.total) (hf : w.abortFlag = false) :
      Employed T (sendResourceUpdate u w).2

/-- The changes that an iteration is made of. -/
inductive Step (T : Terms) (w : Site) : Site → Prop
  | same {w' : Site} (hh : w'.history = w.history) (hw : w'.waitingTasks.Perm w.waitingTasks)
      (ha : w'.activeTasks = w.activeTasks) (hs : w'.storedTasks = w.storedTasks)
      (hr : w'.resultsToBeSent = w.resultsToBeSent) (hal : w'.allocated = w.allocated)
      (ht : w'.total = w.total ∨ T.measured w'.total) : Step T w w'
  | receive (t : Task) (ht : T.sent (present w) t.taskid) :
      Step T w ({ w with waitingTasks := w.waitingTasks ++ [t] }.log (.received t))
  | lose {t : Task} {ts : List Task} (hw : w.waitingTasks = t :: ts) :
      Step T w (startTask .failed t { w with waitingTasks := ts })
  | start {t : Task} {ts : List Task} {ti : TaskInfo} (hw : w.waitingTasks = t :: ts)
      (hti : ti.task = specifyAmounts (needs w.total t) t)
      (hp : ti.pid = 0 ∧ ¬T.opened ∨ ti.pid ≠ 0 ∧ ti.pid ∉ w.activeTasks.keys)
      (hc : checkForResources t w = true) : Step T w (enterTask ti { w with waitingTasks := ts })
  | finish {pid : ℕ} {ti : TaskInfo} (ha : w.activeTasks.lookup pid = some ti) (status : ℤ)
      (length now : ℕ) : Step T w (endTask ti status length now w)
  | report {taskid : ℕ} {ti : TaskInfo} (hr : w.resultsToBeSent.lookup taskid = some ti) :
      Step T w (reportTaskComplete ti { w with resultsToBeSent := w.resultsToBeSent.remove taskid }).2
  | forget {taskid : ℕ} {ti : TaskInfo} (hr : w.resultsToBeSent.lookup taskid = some ti) :
      Step T w ({ w with resultsToBeSent := w.resultsToBeSent.remove taskid }.log (.forgotten ti))
  | kill {taskid : ℕ} {ti : TaskInfo} (hs : w.storedTasks.lookup taskid = some ti) :
      Step T w (killTask ti w)
  | unstore {taskid : ℕ} {ti : TaskInfo} (hs : w.storedTasks.lookup taskid = some ti)
      (ha : w.activeTasks.lookup ti.pid = none) :
      Step T w { w with storedTasks := w.storedTasks.remove taskid }
  | clear : Step T w (killAllTasks w)

abbrev Steps (T : Terms) : Site → Site → Prop := Relation.ReflTransGen (Step T)

section Iterations

variable {T : Terms} {w : Site}

theorem steps_update {u : Update} (hu : T.measured u.total) (w : Site) : Steps T w (sendResourceUpdate u w).2 :=
  .single (.same rfl (.refl _) rfl rfl rfl rfl (.inr hu))

theorem steps_forgetResult (taskid : ℕ) (w : Site) : Steps T w (forgetResult taskid w) := by
  unfold forgetResult
  cases hr : w.resultsToBeSent.lookup taskid with
  | none => exact .refl
  | some ti => exact .single (.forget hr)

theorem steps_doKill (taskid : ℕ) (w : Site) : Steps T w (doKill taskid w) := by
  refine (steps_forgetResult taskid w).trans ?_
  simp only [doKill]
  generalize forgetResult taskid w = w
  cases hs : w.storedTasks.lookup taskid with
  | none => exact .refl
  | some ti =>
    dsimp only
    split
    · exact .single (.kill hs)
    · rename_i ha
      exact .single (.unstore hs (Option.not_isSome_iff_eq_none.mp ha))

theorem steps_reportEach (n : ℕ) (w : Site) : Steps T w (reportEach n w).2 := by
  induction n generalizing w with
  | zero => exact .refl
  | succ n ih =>
    rw [reportEach]
    cases he : w.resultsToBeSent.entries with
    | nil => exact .refl
    | cons e es =>
      have hl : w.resultsToBeSent.lookup e.1 = some e.2 :=
        (Table.mem_entries_iff _ e.1 e.2).mp (he ▸ List.mem_cons_self)
      exact .head (.report hl) (ih _)

theorem steps_reportTasks {u : Update} (hu : T.measured u.total) (n : ℤ) (w : Site) :
    Steps T w (reportTasks u n w).2 :=
  (steps_reportEach _ w).trans (.single (.same rfl (.refl _) rfl rfl rfl rfl (.inr hu)))

theorem firstEnded_mem {wait : ℕ → Waited} {i j : ℕ} {es : List (ℕ × TaskInfo)} {ti : TaskInfo} {a : Waited}
    (h : firstEnded wait i es = (j, some (ti, a))) : ∃ pid, (pid, ti) ∈ es := by
  induction es generalizing i with
  | nil => cases h
  | cons e es ih =>
    unfold firstEnded at h
    split at h
    · obtain ⟨pid, hm⟩ := ih h
      exact ⟨pid, List.mem_cons_of_mem _ hm⟩
    · cases h
      exact ⟨e.1, List.mem_cons_self⟩

theorem step_firstEnded {wait : ℕ → Waited} {i j : ℕ} {ti : TaskInfo} {a : Waited}
    (h : firstEnded wait i w.activeTasks.entries = (j, some (ti, a))) (status : ℤ) (length now : ℕ) :
    Step T w (endTask ti status length now w) := by
  obtain ⟨pid, hm⟩ := firstEnded_mem h
  exact .finish ((Table.mem_entries_iff _ pid ti).mp hm) status length now

theorem steps_handleTasks (wait : ℕ → Waited) (n i : ℕ) (w : Site) :
    Steps T w (handleTasks wait n i w).2 := by
  induction n generalizing i w with
  | zero => exact .refl
  | succ n ih =>
    rw [handleTasks]
    split
    · exact .refl
    · rename_i h
      exact .head (step_firstEnded h _ _ _) (ih _ _)
    · rename_i h
      exact .head (step_firstEnded h _ _ _) (ih _ _)
    · exact .single (.same rfl (.refl _) rfl rfl rfl rfl (.inl rfl))

theorem steps_handleMaster {u : Update} (hu : T.measured u.total) (w : Site) (r : Request)
    (hr : ∀ t, r = .task (some t) true → T.sent (present w) t.taskid) :
    Steps T w (handleMaster u w r).2.2 := by
  cases r with
  | task description linked =>
    cases description with
    | none => exact .refl
    | some t =>
      rw [handleMaster]
      split
      · rename_i hl
        exact (steps_update hu w).tail (.receive t (hr t (by rw [hl])))
      · exact steps_update hu w
  | kill taskid =>
    simp only [handleMaster]
    split
    · exact steps_doKill _ w
    · exact .single .clear
  | reset ok => exact .single .clear
  | sendResults n => exact steps_reportTasks hu n w
  | _ => exact .refl

theorem steps_announce (w : Site) : Steps T w (announce w).2 := by
  unfold announce
  split
  · exact .single (.same rfl (.refl _) rfl rfl rfl rfl (.inl rfl))
  · exact .refl

theorem step_startTask {a : Starting} (ho : T.opened → ∀ used i, a.execute used i ≠ .unopened) (i : ℕ)
    {t : Task} {ts : List Task} (hw : w.waitingTasks = t :: ts) (hc : checkForResources t w = true) :
    Step T w (startTask (a.execute w.activeTasks.keys i) t { w with waitingTasks := ts }) := by
  cases he : a.execute w.activeTasks.keys i with
  | unopened => exact .start hw rfl (.inl ⟨rfl, fun h ↦ ho h _ i he⟩) hc
  | failed => exact .lose hw
  | running pid now => exact .start hw rfl (.inr (a.fresh _ i _ _ he)) hc

theorem steps_startWaiting {a : Starting} (ha : ∀ i, T.measured (a.update i).total)
    (ho : T.opened → ∀ used i, a.execute used i ≠ .unopened) (n i : ℕ) (w : Site) :
    Steps T w (startWaiting a n i w).2 := by
  induction n generalizing i w with
  | zero => exact .refl
  | succ n ih =>
    rw [startWaiting]
    split
    · cases hw : w.waitingTasks with
      | nil => exact .refl
      | cons t ts =>
        dsimp only
        split
        · rename_i hc
          exact .head (step_startTask ho i hw hc) ((steps_update (ha i) _).trans (ih _ _))
        · have hrotate : Step T w { w with waitingTasks := ts ++ [t] } :=
            .same rfl (hw ▸ List.perm_append_singleton t ts) rfl rfl rfl rfl (.inl rfl)
          exact .head hrotate (ih _ _)
    · exact .refl

theorem steps_attend {a : Turn} (ha : a.Meets T w) : Steps T w (attend a w).2.2 := by
  have hsent : Steps T w ((a.periodic.map (fun u ↦ sendResourceUpdate u w)).getD ([], w)).2 ∧
      present ((a.periodic.map (fun u ↦ sendResourceUpdate u w)).getD ([], w)).2 = present w := by
    cases hp : a.periodic with
    | none => exact ⟨.refl, rfl⟩
    | some u => exact ⟨steps_update (ha.periodic u hp) w, rfl⟩
  have hmaster := steps_handleMaster ha.forced
    ((a.periodic.map (fun u ↦ sendResourceUpdate u w)).getD ([], w)).2 a.request (hsent.2 ▸ ha.sent)
  exact ((hsent.1.trans hmaster).trans (steps_handleTasks _ _ _ _)).trans (steps_announce _)

theorem steps_iteration {a : Turn} (ha : a.Meets T w) : Steps T w (iteration a w).2.2 := by
  simp only [iteration]
  split
  · exact (steps_attend ha).trans (steps_startWaiting ha.starting ha.opened _ _ _)
  · exact steps_attend ha

/-- What holds of a new worker and is kept by every change holds of every
worker. -/
theorem Employed.induct {I : Site → Prop} (hstart : ∀ total, T.measured total → I (newSite total))
    (hstep : ∀ w w', Step T w w' → I w → I w') (h : Employed T w) : I w := by
  have hsteps : ∀ {w w'}, Steps T w w' → I w → I w' := by
    intro w w' hs hi
    induction hs with
    | refl => exact hi
    | tail _ hs ih => exact hstep _ _ hs ih
  induction h with
  | start hp => exact hstart _ hp
  | stay _ ha _ _ ih => exact hsteps (steps_iteration ha) ih
  | leave _ ha _ _ _ ih => exact hsteps ((steps_iteration ha).tail .clear) ih
  | volatile _ _ _ ih => exact hstep _ _ .clear ih
  | connect _ hu _ ih => exact hsteps (steps_update hu _) ih

end Iterations

end Cyque.Jobs
