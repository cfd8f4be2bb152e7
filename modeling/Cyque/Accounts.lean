import Cyque.Jobs
import Mathlib.Algebra.Order.BigOperators.Group.List

namespace Cyque.Accounts

open Library.Lookup Library.Scanning Queue Reporting Jobs

/-- The tasks that masters sent, by their numbers. -/
def receivedTask : Deed → Option ℕ
  | .received t => some t.taskid
  | _ => none

/-- The tasks that came to an end at this worker. -/
def goneTask : Deed → Option ℕ
  | .lost t => some t.taskid
  | .displaced ti | .reported ti | .forgotten ti | .killed ti => some ti.taskid
  | _ => none

def receivedTasks (ds : List Deed) : List ℕ := ds.filterMap receivedTask

def goneTasks (ds : List Deed) : List ℕ := ds.filterMap goneTask

def places (w : Site) : List ℕ := present w ++ goneTasks w.history

def taken (t : Table ℕ TaskInfo) (k : Kind) : ℤ := (t.values.map (fun ti ↦ amounts ti.task k)).sum

def leak (k : Kind) (i : ℤ) : Deed → ℤ
  | .displaced ti | .forgotten ti => i + amounts ti.task k
  | .reported ti => if ti.pid = 0 then i + amounts ti.task k else i
  | .cleared => 0
  | _ => i

/-- What was not given back with the tasks that were displaced, the results that
were dropped and those without a process, since all accounts were cleared. -/
def leaked (k : Kind) (ds : List Deed) : ℤ := ds.foldl (leak k) 0

/-- Each task is in one place, under the key that it determines. -/
structure Orderly (w : Site) : Prop where
  conserved : (receivedTasks w.history).Perm (places w)
  byPid : ∀ p ti, w.activeTasks.lookup p = some ti → ti.pid = p
  byTaskid : ∀ i ti, w.resultsToBeSent.lookup i = some ti → ti.taskid = i
  stored : ∀ i ti, w.storedTasks.lookup i = some ti →
    ti.taskid = i ∧ (ti.pid ≠ 0 → w.activeTasks.lookup ti.pid = some ti)
  nonneg : ∀ ti, ti ∈ w.activeTasks.values ∨ ti ∈ w.resultsToBeSent.values → ∀ k, 0 ≤ amounts ti.task k

def Balanced (w : Site) : Prop :=
  ∀ k, w.allocated k = taken w.activeTasks k + taken w.resultsToBeSent k + leaked k w.history

def Kept (w : Site) : Prop := Orderly w ∧ Balanced w

variable {w w' : Site} {k : Kind}

section Tables

variable {t : Table ℕ TaskInfo} {i : ℕ} {ti : TaskInfo}

theorem values_remove (h : t.lookup i = some ti) : t.values.Perm (ti :: (t.remove i).values) :=
  (t.remove_perm h).map Prod.snd

theorem taken_insert (a : TaskInfo) :
    ((t.lookup i).toList.map (fun ti ↦ amounts ti.task k)).sum + taken (t.insert i a) k =
      amounts a.task k + taken t k := by
  have h := ((t.insert_values_perm i a).map (fun ti : TaskInfo ↦ amounts ti.task k)).sum_eq
  rwa [List.map_append, List.sum_append, List.map_cons, List.sum_cons] at h

theorem taken_remove (h : t.lookup i = some ti) :
    taken t k = amounts ti.task k + taken (t.remove i) k :=
  ((values_remove h).map (fun ti : TaskInfo ↦ amounts ti.task k)).sum_eq.trans List.sum_cons

theorem taskids_insert (a : TaskInfo) :
    ((t.lookup i).toList.map TaskInfo.taskid ++ taskids (t.insert i a)).Perm (a.taskid :: taskids t) := by
  have h := (t.insert_values_perm i a).map TaskInfo.taskid
  rwa [List.map_append] at h

theorem taskids_remove (h : t.lookup i = some ti) :
    (taskids t).Perm (ti.taskid :: taskids (t.remove i)) := (values_remove h).map TaskInfo.taskid

theorem mem_values_insert (a : TaskInfo) {x : TaskInfo} (h : x ∈ (t.insert i a).values) : x = a ∨ x ∈ t.values :=
  List.mem_cons.mp ((t.insert_values_perm i a).mem_iff.mp (List.mem_append_right _ h))

theorem mem_values_remove {x : TaskInfo} (h : x ∈ (t.remove i).values) : x ∈ t.values := by
  obtain ⟨j, hj⟩ := (Table.mem_values_iff _ x).mp h
  rw [Table.lookup_remove] at hj
  split at hj
  · cases hj
  · exact (Table.mem_values_iff _ x).mpr ⟨j, hj⟩

end Tables

section Orders

variable {t : Task} {ts : List Task} {i : ℕ} {ti : TaskInfo}

theorem receivedTasks_log (w : Site) (d : Deed) :
    receivedTasks (w.log d).history = receivedTasks w.history ++ (receivedTask d).toList := by
  simp only [receivedTasks, Site.log, List.filterMap_append]
  cases h : receivedTask d <;> simp [h]

theorem goneTasks_log (w : Site) (d : Deed) :
    goneTasks (w.log d).history = goneTasks w.history ++ (goneTask d).toList := by
  simp only [goneTasks, Site.log, List.filterMap_append]
  cases h : goneTask d <;> simp [h]

@[simp] theorem leaked_log (w : Site) (d : Deed) : leaked k (w.log d).history = leak k (leaked k w.history) d := by
  simp [leaked, Site.log]

theorem displace_eq (w : Site) (o : Option TaskInfo) :
    w.displace o = { w with history := w.history ++ o.toList.map Deed.displaced } := by
  cases o with
  | none => simp [Site.displace]
  | some ti => rfl

theorem receivedTasks_displaced (ds : List Deed) (o : Option TaskInfo) :
    receivedTasks (ds ++ o.toList.map Deed.displaced) = receivedTasks ds := by
  cases o <;> simp [receivedTasks, receivedTask]

theorem goneTasks_displaced (ds : List Deed) (o : Option TaskInfo) :
    goneTasks (ds ++ o.toList.map Deed.displaced) = goneTasks ds ++ o.toList.map TaskInfo.taskid := by
  cases o <;> simp [goneTasks, goneTask]

theorem leaked_displaced (ds : List Deed) (o : Option TaskInfo) :
    leaked k (ds ++ o.toList.map Deed.displaced) =
      leaked k ds + (o.toList.map (fun ti ↦ amounts ti.task k)).sum := by
  cases o <;> simp [leaked, leak]

theorem stored_remove (h : Orderly w) (ha : w.activeTasks.lookup ti.pid = some ti) {x : TaskInfo}
    (hx : (w.storedTasks.remove ti.taskid).lookup i = some x) :
    x.taskid = i ∧ (x.pid ≠ 0 → (w.activeTasks.remove ti.pid).lookup x.pid = some x) := by
  rw [Table.lookup_remove] at hx
  split at hx
  · cases hx
  · rename_i hi
    obtain ⟨hid, hl⟩ := h.stored i x hx
    refine ⟨hid, fun hp ↦ ?_⟩
    rw [Table.lookup_remove, if_neg, hl hp]
    intro he
    have hsame := hl hp
    rw [he, ha] at hsame
    cases hsame
    exact hi hid.symm

theorem count_places (w : Site) (j : ℕ) : (places w).count j =
    (w.waitingTasks.map Task.taskid).count j + (taskids w.activeTasks).count j +
      (taskids w.resultsToBeSent).count j + (goneTasks w.history).count j := by
  simp only [places, present, List.count_append]

/-- Changes of what does not belong to the books, and of the order in which the
tasks wait. -/
theorem kept_same (h : Kept w) (hh : w'.history = w.history) (hw : w'.waitingTasks.Perm w.waitingTasks)
    (ha : w'.activeTasks = w.activeTasks) (hs : w'.storedTasks = w.storedTasks)
    (hr : w'.resultsToBeSent = w.resultsToBeSent) (hal : w'.allocated = w.allocated) : Kept w' := by
  refine ⟨⟨?_, ?_, ?_, ?_, ?_⟩, ?_⟩
  · rw [hh]
    refine h.1.conserved.trans ?_
    simp only [places, present, ha, hr, hh]
    exact ((((hw.map Task.taskid).symm.append_right _).append_right _).append_right _)
  · rw [ha]
    exact h.1.byPid
  · rw [hr]
    exact h.1.byTaskid
  · rw [ha, hs]
    exact h.1.stored
  · rw [ha, hr]
    exact h.1.nonneg
  · intro k
    rw [hal, ha, hr, hh]
    exact h.2 k

theorem kept_receive (t : Task) (h : Kept w) :
    Kept ({ w with waitingTasks := w.waitingTasks ++ [t] }.log (.received t)) := by
  refine ⟨⟨?_, h.1.byPid, h.1.byTaskid, h.1.stored, h.1.nonneg⟩, fun k ↦ ?_⟩
  · rw [List.perm_iff_count]
    intro j
    have hc := h.1.conserved.count_eq j
    rw [count_places] at hc ⊢
    rw [receivedTasks_log, goneTasks_log]
    simp only [Site.log, receivedTask, goneTask, Option.toList_some, Option.toList_none, List.append_nil,
      List.map_append, List.map_cons, List.map_nil, List.count_append]
    omega
  · rw [leaked_log]
    exact h.2 k

theorem kept_lose (hw : w.waitingTasks = t :: ts) (h : Kept w) :
    Kept (startTask .failed t { w with waitingTasks := ts }) := by
  refine ⟨⟨?_, h.1.byPid, h.1.byTaskid, h.1.stored, h.1.nonneg⟩, fun k ↦ ?_⟩
  · rw [List.perm_iff_count]
    intro j
    have hc := h.1.conserved.count_eq j
    rw [count_places, hw] at hc
    rw [count_places, startTask, receivedTasks_log, goneTasks_log]
    simp only [Site.log, receivedTask, goneTask, Option.toList_some, Option.toList_none, List.append_nil,
      List.map_cons, List.count_append, List.count_cons, List.count_nil] at hc ⊢
    omega
  · rw [startTask, leaked_log]
    exact h.2 k

theorem amounts_specifyAmounts (a : Amounts) (t : Task) : amounts (specifyAmounts a t) = a := by
  funext k
  cases k <;> rfl

theorem needs_nonneg (a : Amounts) (t : Task) (k : Kind) : 0 ≤ needs a t k := by
  unfold needs
  split
  · have hleast : (0 : ℤ) ≤ if k = .cores then 1 else 0 := by split <;> omega
    exact hleast.trans (le_max_right _ _)
  · exact le_max_right _ _

theorem kept_enter (hw : w.waitingTasks = t :: ts) (hti : ti.task = specifyAmounts (needs w.total t) t)
    (hp : ti.pid ≠ 0 → ti.pid ∉ w.activeTasks.keys) (h : Kept w) :
    Kept (enterTask ti { w with waitingTasks := ts }) := by
  obtain ⟨ho, hb⟩ := h
  have hid : ti.taskid = t.taskid := by rw [TaskInfo.taskid, hti]; rfl
  have hneeds : ∀ k, 0 ≤ amounts ti.task k := by
    intro k
    rw [hti, amounts_specifyAmounts]
    exact needs_nonneg _ t k
  simp only [enterTask, displace_eq, Site.allocate]
  refine ⟨⟨?_, ?_, ho.byTaskid, ?_, ?_⟩, fun k ↦ ?_⟩
  · rw [List.perm_iff_count]
    intro j
    have hc := ho.conserved.count_eq j
    have ha := (taskids_insert (t := w.activeTasks) (i := ti.pid) ti).count_eq j
    rw [count_places, hw] at hc
    rw [count_places, receivedTasks_log, goneTasks_log, receivedTasks_displaced, goneTasks_displaced]
    simp only [Site.log, receivedTask, goneTask, Option.toList_none, List.append_nil, List.map_cons,
      List.count_cons, List.count_append, hid] at hc ha ⊢
    omega
  · intro q x hx
    simp only [Site.log, Table.lookup_insert] at hx
    split at hx
    · rename_i hq
      cases hx
      exact hq.symm
    · exact ho.byPid q x hx
  · intro i x hx
    simp only [Site.log, Table.lookup_insert] at hx ⊢
    split at hx
    · rename_i hi
      cases hx
      exact ⟨hi.symm, fun _ ↦ if_pos rfl⟩
    · obtain ⟨hx, hl⟩ := ho.stored i x hx
      refine ⟨hx, fun hne ↦ ?_⟩
      rw [if_neg, hl hne]
      intro hq
      exact hp (hq ▸ hne) (hq ▸ Table.lookup_eq_some_keys (hl hne))
  · intro x hx
    rcases hx with hx | hx
    · rcases mem_values_insert ti hx with rfl | hx
      · exact hneeds
      · exact ho.nonneg x (.inl hx)
    · exact ho.nonneg x (.inr hx)
  · have hbk := hb k
    have ht := taken_insert (t := w.activeTasks) (i := ti.pid) (k := k) ti
    rw [leaked_log, leaked_displaced]
    simp only [Site.log, leak]
    omega

theorem kept_end {p : ℕ} (ha : w.activeTasks.lookup p = some ti) (status : ℤ) (length now : ℕ) (h : Kept w) :
    Kept (endTask ti status length now w) := by
  obtain ⟨ho, hb⟩ := h
  rw [← ho.byPid p ti ha] at ha
  simp only [endTask, displace_eq]
  generalize hti : ({ ti with status := status, outputLength := length, executionEnd := now } : TaskInfo) = ti'
  have hid : ti'.taskid = ti.taskid := by rw [← hti]; rfl
  have htask : ti'.task = ti.task := by rw [← hti]
  refine ⟨⟨?_, ?_, ?_, fun i x hx ↦ stored_remove ho ha hx, ?_⟩, fun k ↦ ?_⟩
  · rw [List.perm_iff_count]
    intro j
    have hc := ho.conserved.count_eq j
    have hr := (taskids_remove ha).count_eq j
    have hi := (taskids_insert (t := w.resultsToBeSent) (i := ti.taskid) ti').count_eq j
    rw [count_places] at hc
    rw [count_places, receivedTasks_log, goneTasks_log, receivedTasks_displaced, goneTasks_displaced]
    simp only [Site.log, receivedTask, goneTask, Option.toList_none, List.append_nil,
      List.count_cons, List.count_append, hid] at hc hr hi ⊢
    omega
  · intro q x hx
    simp only [Site.log, Table.lookup_remove] at hx
    split at hx
    · cases hx
    · exact ho.byPid q x hx
  · intro i x hx
    simp only [Site.log, Table.lookup_insert] at hx
    split at hx
    · rename_i hi
      cases hx
      rw [hid, hi]
    · exact ho.byTaskid i x hx
  · intro x hx
    rcases hx with hx | hx
    · exact ho.nonneg x (.inl (mem_values_remove hx))
    · rcases mem_values_insert ti' hx with rfl | hx
      · rw [htask]
        exact ho.nonneg ti (.inl ((Table.mem_values_iff _ ti).mpr ⟨_, ha⟩))
      · exact ho.nonneg x (.inr hx)
  · have hbk := hb k
    have hr := taken_remove (k := k) ha
    have hi := taken_insert (t := w.resultsToBeSent) (i := ti.taskid) (k := k) ti'
    rw [leaked_log, leaked_displaced]
    simp only [Site.log, leak, htask] at hi ⊢
    omega

/-- A result leaves its table with the deed `d`, and `a` is given back. -/
theorem kept_drop (hr : w.resultsToBeSent.lookup i = some ti) {d : Deed} (a : Amounts)
    (hrec : receivedTask d = none) (hgone : goneTask d = some ti.taskid)
    (hleak : ∀ k j, leak k j d = j + amounts ti.task k - a k) (h : Kept w) :
    Kept (({ w with resultsToBeSent := w.resultsToBeSent.remove i }.deallocate a).log d) := by
  obtain ⟨ho, hb⟩ := h
  refine ⟨⟨?_, ho.byPid, ?_, ho.stored, ?_⟩, fun k ↦ ?_⟩
  · rw [List.perm_iff_count]
    intro j
    have hc := ho.conserved.count_eq j
    have ht := (taskids_remove hr).count_eq j
    rw [count_places] at hc
    rw [count_places, receivedTasks_log, goneTasks_log, hrec, hgone]
    simp only [Site.log, Site.deallocate, Option.toList_none, Option.toList_some, List.append_nil,
      List.count_append, List.count_cons, List.count_nil] at ht ⊢
    omega
  · intro j x hx
    simp only [Site.log, Site.deallocate, Table.lookup_remove] at hx
    split at hx
    · cases hx
    · exact ho.byTaskid j x hx
  · intro x hx
    exact ho.nonneg x (hx.imp_right mem_values_remove)
  · have hbk := hb k
    have ht := taken_remove (k := k) hr
    rw [leaked_log, hleak]
    simp only [Site.log, Site.deallocate]
    omega

theorem reportTaskComplete_eq (ti : TaskInfo) (w : Site) : (Jobs.reportTaskComplete ti w).2 =
    (w.deallocate (if ti.pid = 0 then fun _ ↦ 0 else amounts ti.task)).log (.reported ti) := by
  simp only [Jobs.reportTaskComplete]
  split <;> simp [Site.deallocate]

theorem kept_report (hr : w.resultsToBeSent.lookup i = some ti) (h : Kept w) :
    Kept (Jobs.reportTaskComplete ti { w with resultsToBeSent := w.resultsToBeSent.remove i }).2 := by
  rw [reportTaskComplete_eq]
  refine kept_drop hr _ rfl rfl (fun k j ↦ ?_) h
  simp only [leak]
  split <;> simp

theorem kept_forget (hr : w.resultsToBeSent.lookup i = some ti) (h : Kept w) :
    Kept ({ w with resultsToBeSent := w.resultsToBeSent.remove i }.log (.forgotten ti)) := by
  have hd := kept_drop hr (d := .forgotten ti) (fun _ ↦ 0) rfl rfl (by simp [leak]) h
  simpa [Site.deallocate] using hd

theorem kept_forgetResult (i : ℕ) (h : Kept w) : Kept (forgetResult i w) := by
  unfold forgetResult
  cases hr : w.resultsToBeSent.lookup i with
  | none => exact h
  | some ti => exact kept_forget hr h

theorem orderly_stop (ho : Orderly w) (ha : w.activeTasks.lookup ti.pid = some ti) (a : Amounts) :
    Orderly ({ w with
      activeTasks := w.activeTasks.remove ti.pid
      storedTasks := w.storedTasks.remove ti.taskid
      allocated := a }.log (.killed ti)) := by
  refine ⟨?_, ?_, ho.byTaskid, fun i x hx ↦ stored_remove ho ha hx, ?_⟩
  · rw [List.perm_iff_count]
    intro j
    have hc := ho.conserved.count_eq j
    have ht := (taskids_remove ha).count_eq j
    rw [count_places] at hc
    rw [count_places, receivedTasks_log, goneTasks_log]
    simp only [Site.log, receivedTask, goneTask, Option.toList_none, Option.toList_some, List.append_nil,
      List.count_append, List.count_cons, List.count_nil] at ht ⊢
    omega
  · intro q x hx
    simp only [Site.log, Table.lookup_remove] at hx
    split at hx
    · cases hx
    · exact ho.byPid q x hx
  · intro x hx
    exact ho.nonneg x (hx.imp_left mem_values_remove)

theorem kept_kill (hs : w.storedTasks.lookup i = some ti) (h : Kept w) : Kept (killTask ti w) := by
  unfold killTask
  split
  · exact kept_same h rfl (.refl _) rfl rfl rfl rfl
  · rename_i hp
    have ha := (h.1.stored i ti hs).2 hp
    refine ⟨orderly_stop h.1 ha _, fun k ↦ ?_⟩
    have hbk := h.2 k
    have ht := taken_remove (k := k) ha
    simp only [Site.deallocate]
    rw [leaked_log]
    simp only [Site.log, leak]
    omega

theorem kept_unstore (i : ℕ) (h : Kept w) : Kept { w with storedTasks := w.storedTasks.remove i } := by
  refine ⟨⟨h.1.conserved, h.1.byPid, h.1.byTaskid, fun j x hx ↦ ?_, h.1.nonneg⟩, h.2⟩
  rw [Table.lookup_remove] at hx
  split at hx
  · cases hx
  · exact h.1.stored j x hx

theorem kept_forgets (is : List ℕ) (h : Kept w) : Kept (is.foldl (fun w i ↦ forgetResult i w) w) := by
  induction is generalizing w with
  | nil => exact h
  | cons i is ih => exact ih (kept_forgetResult i h)

theorem forgetResult_eq (i : ℕ) (w : Site) :
    (forgetResult i w).resultsToBeSent = w.resultsToBeSent.remove i ∧
      (forgetResult i w).waitingTasks = w.waitingTasks ∧ (forgetResult i w).activeTasks = w.activeTasks ∧
      (forgetResult i w).storedTasks = w.storedTasks ∧
      (forgetResult i w).resultsToBeSentMsg = w.resultsToBeSentMsg ∧ (forgetResult i w).total = w.total := by
  unfold forgetResult
  cases hr : w.resultsToBeSent.lookup i with
  | none => exact ⟨(w.resultsToBeSent.remove_of_lookup_none hr).symm, rfl, rfl, rfl, rfl, rfl⟩
  | some ti => exact ⟨rfl, rfl, rfl, rfl, rfl, rfl⟩

theorem forgets_eq (is : List ℕ) (w : Site) :
    (is.foldl (fun w i ↦ forgetResult i w) w).resultsToBeSent = is.foldl Table.remove w.resultsToBeSent ∧
      (is.foldl (fun w i ↦ forgetResult i w) w).waitingTasks = w.waitingTasks ∧
      (is.foldl (fun w i ↦ forgetResult i w) w).activeTasks = w.activeTasks ∧
      (is.foldl (fun w i ↦ forgetResult i w) w).storedTasks = w.storedTasks ∧
      (is.foldl (fun w i ↦ forgetResult i w) w).resultsToBeSentMsg = w.resultsToBeSentMsg ∧
      (is.foldl (fun w i ↦ forgetResult i w) w).total = w.total := by
  induction is generalizing w with
  | nil => exact ⟨rfl, rfl, rfl, rfl, rfl, rfl⟩
  | cons i is ih =>
    obtain ⟨hr, hw, ha, hs, hm, ht⟩ := forgetResult_eq i w
    obtain ⟨h₁, h₂, h₃, h₄, h₅, h₆⟩ := ih (forgetResult i w)
    rw [hr] at h₁
    exact ⟨h₁, h₂.trans hw, h₃.trans ha, h₄.trans hs, h₅.trans hm, h₆.trans ht⟩

theorem lookup_doResetResultsToBeSent (w : Site) (j : ℕ) :
    (doResetResultsToBeSent w).resultsToBeSent.lookup j = none := by
  rw [doResetResultsToBeSent, (forgets_eq _ _).1]
  exact Table.lookup_foldl_remove_keys _ j

theorem kept_doResetResultsToBeSent (h : Kept w) : Kept (doResetResultsToBeSent w) :=
  kept_forgets _ (kept_same h rfl (.refl _) rfl rfl rfl rfl)

theorem reaps_activeTasks (es : List (ℕ × TaskInfo)) (w : Site) :
    (es.foldl reapTask w).activeTasks = (es.map Prod.fst).foldl Table.remove w.activeTasks := by
  induction es generalizing w with
  | nil => rfl
  | cons e es ih => exact ih _

theorem reaps_resultsToBeSent (es : List (ℕ × TaskInfo)) (w : Site) :
    (es.foldl reapTask w).resultsToBeSent = w.resultsToBeSent := by
  induction es generalizing w with
  | nil => rfl
  | cons e es ih => exact ih _

theorem orderly_reaps (es : List (ℕ × TaskInfo)) (ho : Orderly w) (hn : (es.map Prod.fst).Nodup)
    (he : ∀ e ∈ es, w.activeTasks.lookup e.1 = some e.2) : Orderly (es.foldl reapTask w) := by
  induction es generalizing w with
  | nil => exact ho
  | cons e es ih =>
    obtain ⟨hnew, hn⟩ := List.nodup_cons.mp hn
    have hl := he e List.mem_cons_self
    have hpid := ho.byPid _ _ hl
    rw [← hpid] at hl
    have hstep : Orderly (reapTask w e) := by
      have h := orderly_stop ho hl w.allocated
      rw [hpid] at h
      exact h
    refine ih hstep hn (fun x hx ↦ ?_)
    have hne : x.1 ≠ e.1 := by
      intro hxe
      exact hnew (hxe ▸ List.mem_map_of_mem hx)
    rw [reapTask, Site.log, Table.lookup_remove, if_neg hne]
    exact he x (List.mem_cons_of_mem _ hx)

theorem reaps_empty (w : Site) (j : ℕ) : (w.activeTasks.entries.foldl reapTask w).activeTasks.lookup j = none := by
  rw [reaps_activeTasks]
  exact Table.lookup_foldl_remove_keys _ j

theorem values_of_empty {t : Table ℕ TaskInfo} (h : ∀ j, t.lookup j = none) : t.values = [] := by
  rw [List.eq_nil_iff_forall_not_mem]
  intro x hx
  obtain ⟨j, hj⟩ := (Table.mem_values_iff t x).mp hx
  rw [h j] at hj
  cases hj

theorem taken_of_empty {t : Table ℕ TaskInfo} (h : ∀ j, t.lookup j = none) : taken t k = 0 := by
  rw [taken, values_of_empty h]
  rfl

theorem kept_killAllTasks (h : Kept w) : Kept (Jobs.killAllTasks w) := by
  have hresults := lookup_doResetResultsToBeSent w
  have hk := kept_doResetResultsToBeSent h
  simp only [Jobs.killAllTasks]
  generalize doResetResultsToBeSent w = w at hresults hk
  split
  · exact kept_same hk rfl (.refl _) rfl rfl rfl rfl
  · have hactive := reaps_empty w
    have ho : Orderly (w.activeTasks.entries.foldl reapTask w) :=
      orderly_reaps _ hk.1 w.activeTasks.nodup (fun e he ↦ (Table.mem_entries_iff _ e.1 e.2).mp he)
    have hheld : ∀ j, (w.activeTasks.entries.foldl reapTask w).resultsToBeSent.lookup j = none := by
      intro j
      rw [reaps_resultsToBeSent]
      exact hresults j
    generalize w.activeTasks.entries.foldl reapTask w = u at ho hactive hheld
    refine ⟨⟨?_, ho.byPid, ho.byTaskid, fun i x hx ↦ ?_, ho.nonneg⟩, fun k ↦ ?_⟩
    · rw [List.perm_iff_count]
      intro j
      have hc := ho.conserved.count_eq j
      rw [count_places] at hc ⊢
      rw [receivedTasks_log, goneTasks_log]
      simpa [Site.log, receivedTask, goneTask] using hc
    · rw [Site.log, Table.lookup_foldl_remove_keys] at hx
      cases hx
    · rw [leaked_log]
      simp only [Site.log, leak]
      rw [taken_of_empty hactive, taken_of_empty hheld]
      rfl

end Orders

variable {T : Terms}

theorem kept_step (hs : Step T w w') (h : Kept w) : Kept w' := by
  cases hs with
  | same hh hw ha hs hr hal => exact kept_same h hh hw ha hs hr hal
  | receive t => exact kept_receive t h
  | lose hw => exact kept_lose hw h
  | start hw hti hp => exact kept_enter hw hti (fun hne ↦ (hp.resolve_left (fun h ↦ hne h.1)).2) h
  | finish ha => exact kept_end ha _ _ _ h
  | report hr => exact kept_report hr h
  | forget hr => exact kept_forget hr h
  | kill hs => exact kept_kill hs h
  | unstore => exact kept_unstore _ h
  | clear => exact kept_killAllTasks h

theorem kept_newSite (total : Amounts) : Kept (newSite total) := by
  refine ⟨⟨.refl _, ?_, ?_, ?_, ?_⟩, ?_⟩
  · intro p ti h
    cases h
  · intro i ti h
    cases h
  · intro i ti h
    cases h
  · intro ti h
    rcases h with h | h
    · cases h
    · cases h
  · intro k
    rfl

/-- The books of a worker are always in order. -/
theorem employed_kept (h : Employed T w) : Kept w :=
  h.induct (fun total _ ↦ kept_newSite total) (fun _ _ hs hk ↦ kept_step hs hk)

def oneCore : Amounts
  | .cores => 1
  | _ => 0

def oneCoreTask (taskid : ℕ) : Task := { workQueueTaskCreate [] with taskid := taskid, cores := 1 }

theorem sum_not_mem (used : List ℕ) : used.sum + 1 ∉ used := by
  intro hm
  have hle := List.single_le_sum (fun x _ ↦ Nat.zero_le x) _ hm
  omega

/-- Tasks are started as processes, or as nothing when `opened` is false. -/
def turn (opened : Bool) (request : Request) (wait : Waited) : Turn where
  periodic := none
  request := request
  forced := ⟨oneCore, []⟩
  wait _ := wait
  diskAvailable := true
  starting :=
    { execute := fun used _ ↦ if opened then .running (used.sum + 1) 0 else .unopened
      update := fun _ ↦ ⟨oneCore, []⟩
      fresh := by
        intro used i pid now h
        split at h
        · cases h
          exact ⟨Nat.succ_ne_zero _, sum_not_mem used⟩
        · cases h }

/-- The least that a run of these turns meets. -/
def someTerms (opened : Prop) : Terms := ⟨fun total ↦ ∀ k, total k ≤ oneCore k, fun _ _ ↦ True, opened⟩

theorem meets_turn {opened : Bool} {p : Prop} (hp : p → opened = true) (w : Site) (request : Request)
    (wait : Waited) : (turn opened request wait).Meets (someTerms p) w := by
  refine ⟨fun u hu ↦ (by cases hu), fun _ ↦ le_refl _, fun _ _ ↦ le_refl _, fun _ _ ↦ trivial, fun h used i ↦ ?_⟩
  simp [turn, hp h]

theorem meets_opened (w : Site) (request : Request) (wait : Waited) :
    (turn true request wait).Meets (someTerms True) w := meets_turn (fun _ ↦ rfl) w request wait

def oneTask : Site :=
  (iteration (turn true (.task (some (oneCoreTask 1)) true) .running) (newSite oneCore)).2.2

/-- One task runs and the other waits for its core. -/
def twoTasks : Site := (iteration (turn true (.task (some (oneCoreTask 2)) true) .running) oneTask).2.2

theorem employed_oneTask : Employed (someTerms True) oneTask :=
  .stay (.start (fun _ ↦ le_refl _)) (meets_opened _ _ _) rfl (by decide +kernel)

theorem employed_twoTasks : Employed (someTerms True) twoTasks :=
  .stay employed_oneTask (meets_opened _ _ _) (by decide +kernel) (by decide +kernel)

/-- No task is lost and none is there twice: it waits, is active, has a result
that is to be sent, or came to its one end. -/
theorem tasks_conserved (h : Employed T w) :
    (receivedTasks w.history).Perm (w.waitingTasks.map Task.taskid ++ taskids w.activeTasks ++
      taskids w.resultsToBeSent ++ goneTasks w.history) :=
  (employed_kept h).1.conserved

/-- Two tasks that need no core are started, and neither has a file for its
output. -/
def unopenedTasks : Site :=
  let free (taskid : ℕ) : Task := { oneCoreTask taskid with cores := 0, memory := 0 }
  let receive (taskid : ℕ) := turn false (.task (some (free taskid)) true) .running
  (iteration (receive 2) (iteration (receive 1) (newSite oneCore)).2.2).2.2

theorem employed_unopenedTasks : Employed (someTerms False) unopenedTasks :=
  .stay (.stay (.start (fun _ ↦ le_refl _)) (meets_turn False.elim _ _ _) rfl (by decide +kernel))
    (meets_turn False.elim _ _ _) (by decide +kernel) (by decide +kernel)

/-- The first of them is nowhere but among those that came to an end. -/
theorem tasks_conserved_unopenedTasks : receivedTasks unopenedTasks.history = [1, 2] ∧
    taskids unopenedTasks.activeTasks = [2] ∧ goneTasks unopenedTasks.history = [1] ∧
    (receivedTasks unopenedTasks.history).Perm
      (unopenedTasks.waitingTasks.map Task.taskid ++ taskids unopenedTasks.activeTasks ++
        taskids unopenedTasks.resultsToBeSent ++ goneTasks unopenedTasks.history) :=
  ⟨by decide +kernel, by decide +kernel, by decide +kernel, tasks_conserved employed_unopenedTasks⟩

/-- What is allocated is what the tasks hold that are active or have a result,
and what was not given back. -/
theorem resources_accounted (h : Employed T w) (k : Kind) :
    w.allocated k = taken w.activeTasks k + taken w.resultsToBeSent k + leaked k w.history :=
  (employed_kept h).2 k

/-- A task is cancelled when it has ended. -/
def droppedTask : Site :=
  (iteration (turn true (.kill 1) .running) (iteration (turn true .inactive (.exited 0 3 5)) oneTask).2.2).2.2

theorem employed_droppedTask : Employed (someTerms True) droppedTask :=
  .stay (.stay employed_oneTask (meets_opened _ _ _) (by decide +kernel) (by decide +kernel))
    (meets_opened _ _ _) (by decide +kernel) (by decide +kernel)

theorem resources_accounted_droppedTask : leaked .cores droppedTask.history = 1 ∧
    droppedTask.allocated .cores = taken droppedTask.activeTasks .cores +
      taken droppedTask.resultsToBeSent .cores + leaked .cores droppedTask.history :=
  ⟨by decide +kernel, resources_accounted employed_droppedTask .cores⟩

section Bounds

variable {b : Amounts}

/-- Nothing was measured and nothing is allocated above a bound. -/
structure Within (b : Amounts) (w : Site) : Prop where
  total : ∀ k, w.total k ≤ b k
  allocated : ∀ k, w.allocated k ≤ b k
  leaked : ∀ k, 0 ≤ leaked k w.history

theorem needs_le {t : Task} (h : checkForResources t w = true) (k : Kind) :
    w.allocated k + needs w.total t k ≤ w.total k := by
  have hall := List.all_eq_true.mp h k (by cases k <;> simp)
  exact of_decide_eq_true hall

theorem leaked_displaced_nonneg {ds : List Deed} (h : 0 ≤ leaked k ds) {t : Table ℕ TaskInfo} (i : ℕ)
    (ht : ∀ ti ∈ t.values, 0 ≤ amounts ti.task k) :
    0 ≤ leaked k (ds ++ (t.lookup i).toList.map Deed.displaced) := by
  rw [leaked_displaced]
  refine add_nonneg h (List.sum_nonneg (fun x hx ↦ ?_))
  obtain ⟨ti, hti, rfl⟩ := List.mem_map.mp hx
  exact ht ti ((Table.mem_values_iff _ ti).mpr ⟨i, Option.mem_toList.mp hti⟩)

theorem total_reaps (es : List (ℕ × TaskInfo)) (w : Site) : (es.foldl reapTask w).total = w.total := by
  induction es generalizing w with
  | nil => rfl
  | cons e es ih => exact ih _

theorem within_forgets (is : List ℕ) (hk : Kept w) (h : Within b w) :
    Within b (is.foldl (fun w i ↦ forgetResult i w) w) := by
  induction is generalizing w with
  | nil => exact h
  | cons i is ih =>
    refine ih (kept_forgetResult i hk) ?_
    simp only [forgetResult]
    cases hr : w.resultsToBeSent.lookup i with
    | none => exact h
    | some ti =>
      refine ⟨h.total, h.allocated, fun k ↦ ?_⟩
      rw [leaked_log]
      exact add_nonneg (h.leaked k) (hk.1.nonneg ti (.inr ((Table.mem_values_iff _ ti).mpr ⟨i, hr⟩)) k)

theorem within_killAllTasks (hb : ∀ k, 0 ≤ b k) (hk : Kept w) (h : Within b w) :
    Within b (Jobs.killAllTasks w) := by
  have hreset : Within b (doResetResultsToBeSent w) :=
    within_forgets _ (kept_same hk rfl (.refl _) rfl rfl rfl rfl) ⟨h.total, h.allocated, h.leaked⟩
  simp only [Jobs.killAllTasks]
  split
  · exact ⟨hreset.total, hreset.allocated, hreset.leaked⟩
  · refine ⟨fun k ↦ ?_, hb, fun k ↦ ?_⟩
    · simp only [Site.log, total_reaps]
      exact hreset.total k
    · rw [leaked_log]
      exact le_refl 0

theorem within_step (hT : ∀ total, T.measured total → ∀ k, total k ≤ b k) (hb : ∀ k, 0 ≤ b k)
    (hs : Step T w w') (hk : Kept w) (h : Within b w) : Within b w' := by
  have hheld : ∀ {i ti}, w.resultsToBeSent.lookup i = some ti → ∀ k, 0 ≤ amounts ti.task k :=
    fun hr ↦ hk.1.nonneg _ (.inr ((Table.mem_values_iff _ _).mpr ⟨_, hr⟩))
  cases hs with
  | same hh _ _ _ _ hal ht =>
    refine ⟨fun k ↦ ?_, fun k ↦ hal ▸ h.allocated k, fun k ↦ hh ▸ h.leaked k⟩
    rcases ht with ht | ht
    · rw [ht]
      exact h.total k
    · exact hT _ ht k
  | receive t => exact ⟨h.total, h.allocated, fun k ↦ (leaked_log w (.received t)).symm ▸ h.leaked k⟩
  | @lose t ts hw => exact ⟨h.total, h.allocated, fun k ↦ (leaked_log w (.lost t)).symm ▸ h.leaked k⟩
  | @start t ts ti hw hti hp hc =>
    simp only [enterTask, displace_eq, Site.allocate]
    refine ⟨h.total, fun k ↦ ?_, fun k ↦ ?_⟩
    · have hle := (needs_le hc k).trans (h.total k)
      rw [← amounts_specifyAmounts (needs w.total t) t, ← hti] at hle
      exact hle
    · rw [leaked_log]
      exact leaked_displaced_nonneg (h.leaked k) _ (fun x hx ↦ hk.1.nonneg x (.inl hx) k)
  | finish =>
    simp only [endTask, displace_eq]
    refine ⟨h.total, h.allocated, fun k ↦ ?_⟩
    rw [leaked_log]
    exact leaked_displaced_nonneg (h.leaked k) _ (fun x hx ↦ hk.1.nonneg x (.inr hx) k)
  | @report taskid ti hr =>
    rw [reportTaskComplete_eq]
    refine ⟨h.total, fun k ↦ (sub_le_self _ ?_).trans (h.allocated k), fun k ↦ ?_⟩
    · split
      · exact le_refl 0
      · exact hheld hr k
    · rw [leaked_log, leak]
      split
      · exact add_nonneg (h.leaked k) (hheld hr k)
      · exact h.leaked k
  | forget hr =>
    refine ⟨h.total, h.allocated, fun k ↦ ?_⟩
    rw [leaked_log]
    exact add_nonneg (h.leaked k) (hheld hr k)
  | @kill taskid ti hs =>
    unfold killTask
    split
    · exact ⟨h.total, h.allocated, h.leaked⟩
    · rename_i hp
      have ha := (hk.1.stored taskid ti hs).2 hp
      refine ⟨h.total, fun k ↦ ?_, fun k ↦ ?_⟩
      · refine (sub_le_self _ ?_).trans (h.allocated k)
        exact hk.1.nonneg _ (.inl ((Table.mem_values_iff _ _).mpr ⟨_, ha⟩)) k
      · rw [leaked_log]
        exact h.leaked k
  | unstore => exact ⟨h.total, h.allocated, h.leaked⟩
  | clear => exact within_killAllTasks hb hk h

theorem taken_nonneg {t : Table ℕ TaskInfo} (h : ∀ ti ∈ t.values, 0 ≤ amounts ti.task k) : 0 ≤ taken t k := by
  refine List.sum_nonneg (fun x hx ↦ ?_)
  obtain ⟨ti, hti, rfl⟩ := List.mem_map.mp hx
  exact h ti hti

/-- The active tasks never take more than the most that was ever measured. -/
theorem resources_bounded (hb : ∀ k, 0 ≤ b k) (hT : ∀ total, T.measured total → ∀ k, total k ≤ b k)
    (h : Employed T w) (k : Kind) : taken w.activeTasks k ≤ w.allocated k ∧ w.allocated k ≤ b k := by
  have hw : Kept w ∧ Within b w := by
    refine h.induct (I := fun w ↦ Kept w ∧ Within b w) (fun total ht ↦ ?_) ?_
    · exact ⟨kept_newSite total, hT total ht, hb, fun _ ↦ le_refl 0⟩
    · intro w w' hs ih
      exact ⟨kept_step hs ih.1, within_step hT hb hs ih.1 ih.2⟩
  obtain ⟨⟨ho, hbal⟩, hwithin⟩ := hw
  have hheld := taken_nonneg (fun ti hti ↦ ho.nonneg ti (.inr hti) k)
  have hleaked := hwithin.leaked k
  have hbk := hbal k
  exact ⟨by omega, hwithin.allocated k⟩

theorem resources_bounded_twoTasks : 0 < taken twoTasks.activeTasks .cores ∧
    taken twoTasks.activeTasks .cores ≤ twoTasks.allocated .cores ∧ twoTasks.allocated .cores ≤ 1 := by
  have hb : ∀ k, 0 ≤ oneCore k := by
    intro k
    cases k <;> decide
  exact ⟨by decide +kernel, resources_bounded hb (fun _ h ↦ h) employed_twoTasks .cores⟩

end Bounds

section Starting

variable {a : Starting} {t : Task}

theorem checkForResources_mono (ht : w'.total = w.total) (hal : ∀ k, w.allocated k ≤ w'.allocated k)
    (h : checkForResources t w = false) : checkForResources t w' = false := by
  rw [Bool.eq_false_iff] at h ⊢
  intro hc
  apply h
  refine List.all_eq_true.mpr (fun k _ ↦ ?_)
  have hle := needs_le hc k
  rw [ht] at hle
  have hk := hal k
  exact decide_eq_true (by omega)

theorem startTask_waitingTasks (executed : Executed) (t : Task) (w : Site) :
    (startTask executed t w).waitingTasks = w.waitingTasks := by
  cases executed <;> simp [startTask, enterTask, displace_eq, Site.allocate, Site.log]

theorem enterTask_allocated (ti : TaskInfo) (w : Site) :
    (enterTask ti w).allocated = fun k ↦ w.allocated k + amounts ti.task k := by
  simp only [enterTask, displace_eq]
  rfl

theorem le_startTask_allocated (executed : Executed) (t : Task) (w : Site) (k : Kind) :
    w.allocated k ≤ (startTask executed t w).allocated k := by
  cases executed with
  | failed => exact le_refl _
  | unopened | running =>
    rw [startTask, enterTask_allocated, amounts_specifyAmounts]
    exact le_add_of_nonneg_right (needs_nonneg _ t k)

/-- The tasks behind the first `n` were visited and do not fit. -/
theorem startWaiting_exhausts (n i : ℕ) (w : Site) (ha : ∀ i, (a.update i).total = w.total)
    (hn : n ≤ w.waitingTasks.length) (hv : ∀ t ∈ w.waitingTasks.drop n, checkForResources t w = false) :
    (startWaiting a n i w).2.total .cores ≤ (startWaiting a n i w).2.allocated .cores ∨
      ∀ t ∈ (startWaiting a n i w).2.waitingTasks, checkForResources t (startWaiting a n i w).2 = false := by
  induction n generalizing i w with
  | zero => exact .inr hv
  | succ n ih =>
    rw [startWaiting]
    split
    · cases hw : w.waitingTasks with
      | nil => exact .inr (fun t ht ↦ by rw [hw] at ht; cases ht)
      | cons t ts =>
        rw [hw] at hn hv
        dsimp only
        split
        · refine ih (i + 1) _ (fun j ↦ (ha j).trans (ha i).symm) ?_ ?_
          · simpa [sendResourceUpdate, startTask_waitingTasks] using hn
          · intro x hx
            simp only [sendResourceUpdate, startTask_waitingTasks] at hx
            exact checkForResources_mono (ha i) (le_startTask_allocated _ t _) (hv x hx)
        · rename_i hc
          refine ih i _ ha ?_ ?_
          · simp only [List.length_cons, List.length_append, List.length_nil] at hn ⊢
            omega
          · intro x hx
            rw [List.drop_append_of_le_length (Nat.le_of_succ_le_succ hn)] at hx
            rcases List.mem_append.mp hx with hx | hx
            · exact hv x hx
            · rw [List.mem_singleton.mp hx]
              exact Bool.eq_false_iff.mpr hc
    · rename_i hc
      exact .inl (not_lt.mp hc)

theorem opened_step (hs : Step T w w') (ho : T.opened)
    (h : ∀ i ti, w.storedTasks.lookup i = some ti → ti.pid ≠ 0) (i : ℕ) (ti : TaskInfo)
    (hti : w'.storedTasks.lookup i = some ti) : ti.pid ≠ 0 := by
  have hremove : ∀ {j}, (w.storedTasks.remove j).lookup i = some ti → ti.pid ≠ 0 := by
    intro j hj
    rw [Table.lookup_remove] at hj
    split at hj
    · cases hj
    · exact h i ti hj
  cases hs with
  | same _ _ _ hs => exact h i ti (hs ▸ hti)
  | receive | lose | forget => exact h i ti hti
  | start _ _ hp =>
    simp only [enterTask, displace_eq, Site.allocate, Site.log, Table.lookup_insert] at hti
    split at hti
    · cases hti
      exact (hp.resolve_left (fun h ↦ h.2 ho)).1
    · exact h i ti hti
  | finish =>
    simp only [endTask, displace_eq, Site.log] at hti
    exact hremove hti
  | report =>
    rw [reportTaskComplete_eq] at hti
    exact h i ti hti
  | kill =>
    unfold killTask at hti
    split at hti
    · exact h i ti hti
    · exact hremove hti
  | unstore => exact hremove hti
  | clear =>
    have hstored := (forgets_eq w.resultsToBeSent.keys { w with resultsToBeSentMsg := false }).2.2.2.1
    simp only [Jobs.killAllTasks] at hti
    split at hti
    · exact h i ti (hstored ▸ hti)
    · simp only [Site.log, Table.lookup_foldl_remove_keys] at hti
      cases hti

/-- A worker that keeps its connection runs a task whenever tasks wait. When the
totals stayed the same, all cores are taken or none of these tasks fits. -/
theorem stays_busy {a : Turn} (h : Employed T w) (ho : T.opened) (ha : a.Meets T w) (hf : w.abortFlag = false)
    (hup : (iteration a w).1 = true) :
    ((iteration a w).2.2.waitingTasks ≠ [] → ∃ pid ti, (iteration a w).2.2.activeTasks.lookup pid = some ti) ∧
    ((∀ i, (a.starting.update i).total = (attend a w).2.2.total) →
      (iteration a w).2.2.total .cores ≤ (iteration a w).2.2.allocated .cores ∨
        ∀ t ∈ (iteration a w).2.2.waitingTasks, checkForResources t (iteration a w).2.2 = false) := by
  have hnext : Employed T (iteration a w).2.2 := .stay h ha hf hup
  have hstored := (employed_kept hnext).1.stored
  have hopened := hnext.induct (I := fun w ↦ ∀ i ti, w.storedTasks.lookup i = some ti → ti.pid ≠ 0)
    (fun _ _ i ti hti ↦ (by cases hti)) (fun _ _ hs ih ↦ opened_step hs ho ih)
  simp only [iteration] at hup hstored hopened ⊢
  split at hup
  · rename_i hok
    rw [if_pos hok] at hstored hopened ⊢
    constructor
    · intro hw
      have hs : (startWaiting a.starting (attend a w).2.2.waitingTasks.length 0
          (attend a w).2.2).2.storedTasks.size ≠ 0 := by
        have hpos := List.length_pos_of_ne_nil hw
        simpa [hpos] using hup
      rw [ne_eq, Table.size_eq_zero_iff, not_forall] at hs
      obtain ⟨i, hi⟩ := hs
      obtain ⟨ti, hti⟩ := Option.ne_none_iff_exists'.mp hi
      exact ⟨ti.pid, ti, (hstored i ti hti).2 (hopened i ti hti)⟩
    · intro htotal
      refine startWaiting_exhausts _ 0 _ htotal (le_refl _) (fun t ht ↦ ?_)
      rw [List.drop_length] at ht
      cases ht
  · rename_i hdown
    exact absurd hup hdown

theorem stays_busy_twoTasks : twoTasks.waitingTasks ≠ [] ∧
    (twoTasks.waitingTasks ≠ [] → ∃ pid ti, twoTasks.activeTasks.lookup pid = some ti) := by
  refine ⟨?_, (stays_busy employed_oneTask trivial (meets_opened _ _ _) (by decide +kernel)
    (by decide +kernel)).1⟩
  intro hw
  exact absurd (congrArg List.length hw) (by decide +kernel)

end Starting

end Cyque.Accounts
