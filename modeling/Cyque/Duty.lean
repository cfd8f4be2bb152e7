import Cyque.Accounts
import Cyque.Notices

namespace Cyque.Duty

open Library.Lookup Library.Scanning Queue Worker Reporting Attention Notices Jobs Accounts

def service (w : Site) : Service where
  waitingTasks := w.waitingTasks.map Task.taskid
  activeTasks := taskids w.activeTasks
  resultsToBeSent := w.resultsToBeSent.map TaskInfo.ending
  resultsToBeSentMsg := w.resultsToBeSentMsg

variable {w : Site} {v : Service} {i : ℕ} {ti : TaskInfo}

/-- The numbers tell the tasks apart, and the tasks that are stored are those
that run. -/
structure Tidy (w : Site) : Prop where
  kept : Kept w
  distinct : (present w).Nodup
  opened : ∀ i ti, w.storedTasks.lookup i = some ti → ti.pid ≠ 0
  stored : ∀ p ti, w.activeTasks.lookup p = some ti → w.storedTasks.lookup ti.taskid = some ti

section Tidiness

variable {w' : Site} {t : Task} {ts : List Task} {p : ℕ} {x : TaskInfo}

theorem Tidy.stored_remove (h : Tidy w) (ha : w.activeTasks.lookup ti.pid = some ti)
    (hx : (w.activeTasks.remove ti.pid).lookup p = some x) :
    (w.storedTasks.remove ti.taskid).lookup x.taskid = some x := by
  rw [Table.lookup_remove] at hx ⊢
  split at hx
  · cases hx
  · rename_i hp
    have hl := h.stored p x hx
    rw [if_neg, hl]
    intro he
    rw [he, h.stored _ ti ha] at hl
    cases hl
    exact hp (h.kept.1.byPid p ti hx).symm

theorem reaps_eq (es : List (ℕ × TaskInfo)) (w : Site) :
    (es.foldl reapTask w).waitingTasks = w.waitingTasks ∧
      (es.foldl reapTask w).resultsToBeSentMsg = w.resultsToBeSentMsg := by
  induction es generalizing w with
  | nil => exact ⟨rfl, rfl⟩
  | cons e es ih => exact ih _

/-- Only the tasks that wait are left of a worker that did not kill itself. -/
structure Cleared (w w' : Site) : Prop where
  waiting : w'.waitingTasks = w.waitingTasks
  active : ∀ j, w'.activeTasks.lookup j = none
  stored : ∀ j, w'.storedTasks.lookup j = none
  results : w'.resultsToBeSent = w.resultsToBeSent.keys.foldl Table.remove w.resultsToBeSent
  msg : w'.resultsToBeSentMsg = false

theorem Cleared.taskids_active {w' : Site} (h : Cleared w w') : taskids w'.activeTasks = [] := by
  rw [taskids, values_of_empty h.active, List.map_nil]

theorem cleared_killAllTasks (hp : ∀ p ti, w.activeTasks.lookup p = some ti → ti.pid ≠ 0) :
    Cleared w (Jobs.killAllTasks w) := by
  obtain ⟨hresults, hwaiting, hactive, -, hmsg, -⟩ :=
    forgets_eq w.resultsToBeSent.keys { w with resultsToBeSentMsg := false }
  have hpids : ¬((doResetResultsToBeSent w).activeTasks.values.any (fun ti ↦ ti.pid = 0) = true) := by
    rw [doResetResultsToBeSent, hactive, List.any_eq_true]
    rintro ⟨ti, hti, hzero⟩
    obtain ⟨q, hq⟩ := (Table.mem_values_iff _ ti).mp hti
    exact hp q ti hq (of_decide_eq_true hzero)
  have hreap := reaps_eq (doResetResultsToBeSent w).activeTasks.entries (doResetResultsToBeSent w)
  simp only [Jobs.killAllTasks, if_neg hpids, Site.log]
  exact ⟨hreap.1.trans hwaiting, reaps_empty _, Table.lookup_foldl_remove_keys _,
    (reaps_resultsToBeSent _ _).trans hresults, hreap.2.trans hmsg⟩

/-- A worker with a task without a process kills itself. -/
theorem pid_ne_zero (hd : (Jobs.killAllTasks w).dead = false) {p : ℕ} (h : w.activeTasks.lookup p = some ti) :
    ti.pid ≠ 0 := by
  intro hzero
  obtain ⟨-, -, hactive, -⟩ := forgets_eq w.resultsToBeSent.keys { w with resultsToBeSentMsg := false }
  have hpids : (doResetResultsToBeSent w).activeTasks.values.any (fun ti ↦ ti.pid = 0) = true := by
    rw [doResetResultsToBeSent, hactive, List.any_eq_true]
    exact ⟨ti, (Table.mem_values_iff _ ti).mpr ⟨p, h⟩, decide_eq_true hzero⟩
  simp only [Jobs.killAllTasks, if_pos hpids] at hd
  cases hd

end Tidiness

/-- A worker when it gets a connection: it is new or has left its master, and may
have measured its resources since. -/
inductive Vacant (T : Terms) : Site → Prop
  | start {total : Amounts} (hp : T.measured total) : Vacant T (newSite total)
  | leave {w : Site} {a : Turn} (h : Employed T w) (ha : a.Meets T w) (hf : w.abortFlag = false)
      (hdown : (iteration a w).1 = false) (hd : (disconnectMaster (iteration a w).2.2).dead = false) :
      Vacant T (disconnectMaster (iteration a w).2.2)
  | volatile {w : Site} (h : Employed T w) (hf : w.abortFlag = false) (hd : (disconnectMaster w).dead = false) :
      Vacant T (disconnectMaster w)
  | connect {w : Site} {u : Update} (h : Vacant T w) (hu : T.measured u.total) (hf : w.abortFlag = false) :
      Vacant T (sendResourceUpdate u w).2

theorem fresh_disconnectMaster (hd : (disconnectMaster w).dead = false) :
    Fresh (service (disconnectMaster w)) ∧ (disconnectMaster w).storedTasks.size = 0 := by
  have hc : Cleared w (disconnectMaster w) := cleared_killAllTasks (fun _ _ h ↦ pid_ne_zero hd h)
  refine ⟨⟨?_, hc.msg, hc.taskids_active⟩, (Table.size_eq_zero_iff _).mpr hc.stored⟩
  rw [service, Table.size_map, Table.size_eq_zero_iff, hc.results]
  exact fun j ↦ Table.lookup_foldl_remove_keys w.resultsToBeSent j

theorem Vacant.fresh {T : Terms} (h : Vacant T w) : Fresh (service w) ∧ w.storedTasks.size = 0 := by
  induction h with
  | start => exact ⟨⟨rfl, rfl, rfl⟩, rfl⟩
  | leave _ _ _ _ hd => exact fresh_disconnectMaster hd
  | volatile _ _ hd => exact fresh_disconnectMaster hd
  | connect _ _ _ ih => exact ih

end Cyque.Duty
