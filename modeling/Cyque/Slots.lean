import Cyque.Agreement

namespace Cyque.Slots

open Library.Execution Library.Lookup Library.Scanning Library.Binary64 Queue Link Workers Transfer
open Dispatch Wait Api Run Footprint Placement History Steps Conduct Collect Polling Turns Calls
open Agreement Relation

variable {s s' : State} {p : Ref → Option Place} {k : Key} {r : Ref} {env : Environment}
variable {σ : Scope}

/-- A worker is charged one slot for each of its tasks, and nothing else. -/
structure Exact (w : Worker) : Prop where
  unlabeled : w.unlabeledAllocated = w.currentTasks.size
  cores : w.coresAllocated = 0
  memory : w.memoryAllocated = 0
  disk : w.diskAllocated = 0
  gpus : w.gpusAllocated = 0

def Accounted (s : State) : Prop := ∀ k w, s.workerTable.lookup k = some w → Exact w

theorem exact_of_duties {w w' : Worker} (hd : duties w' = duties w) (h : Exact w) : Exact w' := by
  simp only [duties, Prod.mk.injEq] at hd
  obtain ⟨h₁, h₂, h₃, h₄, h₅, h₆⟩ := hd
  exact ⟨by rw [h₁, h₂, h.unlabeled], h₃.trans h.cores, h₄.trans h.memory, h₅.trans h.disk,
    h₆.trans h.gpus⟩

theorem exact_acceptTask {w : Worker} {t : Task} (h : Exact w) (hu : t.unlabeled)
    (hn : w.currentTasks.lookup t.taskid = none) : Exact (acceptTask t r w) := by
  have he : acceptTask t r w = { w with
      currentTasks := w.currentTasks.insert t.taskid r
      unlabeledAllocated := w.unlabeledAllocated + 1 } := by
    simp only [acceptTask, allocate, hu, if_true]
  rw [he]
  refine ⟨?_, h.cores, h.memory, h.disk, h.gpus⟩
  show w.unlabeledAllocated + 1 = ((w.currentTasks.insert t.taskid r).size : ℤ)
  rw [Table.size_insert _ _ _ hn, h.unlabeled]
  rfl

theorem exact_releaseTask {w : Worker} {t : Task} (h : Exact w) (hu : t.unlabeled)
    (hr : w.currentTasks.lookup t.taskid = some r) : Exact (releaseTask t w) := by
  have hs := Table.size_remove _ hr
  have he : releaseTask t w = clamp { w with
      currentTasks := w.currentTasks.remove t.taskid
      unlabeledAllocated := w.unlabeledAllocated - 1 } := by
    simp only [releaseTask, deallocate, hu, if_true]
  rw [he]
  refine ⟨?_, ?_, ?_, ?_, ?_⟩
  · show max (w.unlabeledAllocated - 1) 0 = ((w.currentTasks.remove t.taskid).size : ℤ)
    rw [h.unlabeled]
    omega
  · show max w.coresAllocated 0 = 0
    rw [h.cores]
    rfl
  · show max w.memoryAllocated 0 = 0
    rw [h.memory]
    rfl
  · show max w.diskAllocated 0 = 0
    rw [h.disk]
    rfl
  · show max w.gpusAllocated 0 = 0
    rw [h.gpus]
    rfl

/-- A property of workers that taking and giving back tasks sustains. -/
structure Sustained (I : Worker → Prop) : Prop where
  duties : ∀ {w w'}, duties w' = duties w → I w → I w'
  accept : ∀ {w t r}, I w → t.unlabeled → w.currentTasks.lookup t.taskid = none → I (acceptTask t r w)
  release : ∀ {w t r}, I w → t.unlabeled → w.currentTasks.lookup t.taskid = some r → I (releaseTask t w)
  clear : ∀ {w}, I w → (∀ i, w.currentTasks.lookup i = none) → I (clearTasks w)
  new : ∀ env now q, I (newWorker env now q)

def Each (I : Worker → Prop) (s : State) : Prop := ∀ k w, s.workerTable.lookup k = some w → I w

section Each

variable {I : Worker → Prop}

theorem each_alter {f : Worker → Worker} (h : Each I s)
    (hs : s'.workerTable = s.workerTable.alter k f)
    (hf : ∀ w, s.workerTable.lookup k = some w → I w → I (f w)) : Each I s' := by
  intro j w' hw'
  rw [hs, Table.lookup_alter] at hw'
  split at hw'
  · rename_i he
    subst he
    obtain ⟨w, hw, rfl⟩ := Option.map_eq_some_iff.mp hw'
    exact hf w hw (h j w hw)
  · exact h j w' hw'

theorem each_alike (hI : Sustained I) (h : Each I s) (ha : Alike s s') : Each I s' := by
  intro k w' hw'
  obtain ⟨w, hw, hd⟩ := ha.worker k w' hw'
  exact hI.duties hd (h k w hw)

theorem each_release (hI : Sustained I) {t : Task} (h : Each I s) (hr : Holds s k r)
    (hi : t.taskid = (s.heap r).taskid) (hu : t.unlabeled)
    (hs : s'.workerTable = s.workerTable.alter k (releaseTask t)) : Each I s' := by
  obtain ⟨w₀, hw₀, ht⟩ := hr
  refine each_alter h hs (fun w hw he ↦ ?_)
  rw [hw₀] at hw
  cases hw
  exact hI.release he hu (by rw [hi, ht])

theorem step_each (hI : Sustained I) (h : Step σ s s') (hc : Consistent s p) (ha : Each I s) :
    Each I s' := by
  cases h with
  | quiet h => exact each_alike hI ha (quiet_alike h)
  | commit now k r hcom hr hk =>
    have hp : p r = some .ready := (hc.ready r).mp (List.mem_of_mem_head? hr)
    refine each_alter (f := acceptTask (s.heap r) r) ha rfl (fun w hw he ↦ ?_)
    refine hI.accept he (hc.unlabeled r) ?_
    rw [hc.held_at (by rw [hp]; exact Option.some_ne_none _) hw, if_neg (by rw [hp]; rintro ⟨⟩)]
  | finish now k =>
    exact each_alter (f := fun w ↦ { w with finishedTasks := w.finishedTasks + 1 }) ha rfl
      (fun w _ he ↦ hI.duties (w := w) rfl he)
  | fail k r hr => exact each_release hI ha hr rfl (hc.unlabeled r) rfl
  | complete now k r hr =>
    have hg : Each I (giveBack k r s) := each_release hI ha hr rfl (hc.unlabeled r) rfl
    exact each_alter (f := creditWorker _) hg rfl (fun w _ he ↦ hI.duties (w := w) rfl he)
  | requeue elapsed k r hr =>
    refine each_release hI (t := (requeue elapsed k r s).heap r) ha hr ?_ ?_ rfl
    · simp [requeue, reap, State.setTask]
    · simpa [requeue, reap, State.setTask] using hc.unlabeled r
  | clearFiles k hash =>
    exact each_alter (f := clearFiles hash) ha rfl (fun w _ he ↦ hI.duties (w := w) rfl he)
  | clearTasks k hk =>
    obtain ⟨w₀, hw₀, hn⟩ := hk
    refine each_alter (f := clearTasks) ha rfl (fun w hw he ↦ ?_)
    rw [hw₀] at hw
    cases hw
    exact hI.clear he hn
  | disconnect k hlea hk =>
    intro j w hw
    simp only [disconnect, Table.lookup_remove] at hw
    split at hw
    · cases hw
    · exact ha j w hw
  | connect now q hq =>
    intro j w hw
    simp only [connect, Table.lookup_insertNew] at hw
    split at hw
    · rename_i he
      subst he
      cases hl : s.workerTable.lookup q.link with
      | none =>
        rw [hl] at hw
        cases hw
        exact hI.new _ _ _
      | some w' => exact absurd ⟨w', hl⟩ hq
    · exact ha j w hw
  | _ => exact ha

theorem turn_each {d : Prop} (hI : Sustained I)
    (hdrop : d → ∀ {w t r}, I w → w.currentTasks.lookup t.taskid = some r → I (expelTask t.taskid t w))
    (h : Turn σ d s s') (hc : Consistent s p) (ha : Each I s) : Each I s' := by
  cases h with
  | step h => exact step_each hI h hc ha
  | release k r hr => exact each_release hI ha hr rfl (hc.unlabeled r) rfl
  | drop u k r hd hr hq =>
    have hal := hushed_alike hq
    have hu : Each I u := each_alike (s := dropTask (s.heap r).taskid s) hI ha hal
    refine each_alter (f := expelTask (s.heap r).taskid (s.heap r)) hu rfl (fun w hw he ↦ ?_)
    obtain ⟨w₀, hw₀, hdu⟩ := hal.worker k w hw
    obtain ⟨w₁, hw₁, ht⟩ := hr
    have hw₀' : s.workerTable.lookup k = some w₀ := hw₀
    rw [hw₁] at hw₀'
    cases hw₀'
    refine hdrop hd he (r := r) ?_
    rw [← ht]
    exact congrArg (fun x ↦ x.1.lookup (s.heap r).taskid) hdu
  | _ => exact ha

end Each

theorem sustained_exact : Sustained Exact where
  duties := exact_of_duties
  accept := exact_acceptTask
  release := exact_releaseTask
  clear h hn := ⟨by rw [clearTasks, h.unlabeled, (Table.size_eq_zero_iff _).mpr hn]; rfl, h.cores,
    h.memory, h.disk, h.gpus⟩
  new _ _ _ := ⟨rfl, rfl, rfl, rfl, rfl⟩

theorem turn_nextTaskid {d : Prop} (h : Turn σ d s s') (hs : s.nextTaskid < 2 ^ 31) :
    s'.nextTaskid < 2 ^ 31 := by
  cases h with
  | step h => rwa [step_nextTaskid h]
  | submit now r hr hi hl =>
    show s.nextTaskid + 1 < 2 ^ 31
    omega
  | drop u k r hd hr hq =>
    show u.nextTaskid < 2 ^ 31
    rw [(hushed_alike hq).next]
    exact hs
  | _ => exact hs

theorem turns_nextTaskid {d : Prop} (h : ReflTransGen (Turn σ d) s s')
    (hs : s.nextTaskid < 2 ^ 31) : s'.nextTaskid < 2 ^ 31 := by
  induction h with
  | refl => exact hs
  | tail _ ht ih => exact turn_nextTaskid ht ih

/-- The identifiers of the tasks that a worker holds are distinct and small. -/
theorem size_le_nextTaskid (h : Consistent s p) {w : Worker} (hw : s.workerTable.lookup k = some w) :
    w.currentTasks.size ≤ s.nextTaskid := by
  have hsub : w.currentTasks.keys ⊆ List.range s.nextTaskid := by
    intro i hi
    obtain ⟨r, hr⟩ := Table.exists_lookup_of_mem_keys hi
    obtain ⟨rfl, hk⟩ := (h.held k w hw i r).mp hr
    exact List.mem_range.mpr (h.named r (ne_none_of_workerOf hk)).2
  have hle := (List.subperm_of_subset w.currentTasks.nodup hsub).length_le
  rwa [List.length_map, List.length_range] at hle

/-- With so few tasks the rounding of a large number of slots does not show. -/
theorem overcommitted_lt_iff {held : ℕ} {total : ℤ} (hh : held < 2 ^ 31) (ht : total < 2 ^ 63 - 512) :
    overcommittedResourceTotal total true < held + 1 ↔ ¬ (held : ℤ) < total := by
  unfold overcommittedResourceTotal
  split
  · rename_i hpos
    have hlt : total.toNat < 2 ^ 63 - 512 := by omega
    rw [toInt64, if_pos (round_lt hlt)]
    simp only [if_true, asynchronyModifier, add_zero]
    by_cases hs : total.toNat < 2 ^ 53
    · rw [round_of_lt hs]
      omega
    · have := le_round (not_lt.mp hs)
      omega
  · omega

theorem check_iff {w : Worker} (h : Exact w) (hh : w.currentTasks.size < 2 ^ 31)
    (ht : w.resources.workers.total < 2 ^ 63 - 512) {t : Task} (hu : t.unlabeled) :
    checkWorkerAgainstTask w t = true ↔ (w.currentTasks.size : ℤ) < w.resources.workers.total := by
  have hover := overcommitted_lt_iff hh ht
  rw [checkWorkerAgainstTask, if_pos hu, h.cores, h.memory, h.disk, h.gpus, h.unlabeled]
  simp [hover]

/-- No worker has a task when all tasks are cancelled. -/
def Unhurried (s : State) (c : Call) : Prop :=
  c = .cancelAllTasks → ∀ k w, s.workerTable.lookup k = some w → w.currentTasks.size = 0

theorem slots_exact (h : Reachable Unhurried env s) {w : Worker}
    (hw : s.workerTable.lookup k = some w) :
    Exact w ∧ ∀ r, (s.heap r).unlabeled ∧ (w.resources.workers.total < 2 ^ 63 - 512 →
      (checkWorkerAgainstTask w (s.heap r) = true ↔
        (w.currentTasks.size : ℤ) < w.resources.workers.total)) := by
  have hturns : ReflTransGen (Turn .waiting False) (newQueue env) s := by
    refine reachable_turns h ?_
    rintro s k r hok ⟨w, hw, hr⟩
    have := (Table.size_eq_zero_iff _).mp (hok rfl k w hw) (s.heap r).taskid
    rw [hr] at this
    cases this
  have hnew : Placed (newQueue env) := (sound_newQueue env).steadfast.1
  obtain ⟨⟨p, hp⟩, ha⟩ := turns_keep (I := Accounted)
    (fun _ _ _ ↦ turn_each sustained_exact False.elim) hturns hnew (by rintro k w ⟨⟩)
  have hnext : s.nextTaskid < 2 ^ 31 := turns_nextTaskid hturns (by decide : (1 : ℕ) < 2 ^ 31)
  have hsize := size_le_nextTaskid hp hw
  exact ⟨ha k w hw, fun r ↦ ⟨hp.unlabeled r, fun ht ↦
    check_iff (ha k w hw) (by omega) ht (hp.unlabeled r)⟩⟩

/-- A worker with two slots that finishes the first of its tasks. -/
def twoSlots : Environment := alone (lines ["workqueue 3 host linux x86 4",
  "resource workers 0 0 2 0 0", "available_results", "result 0 0 0 1", "end"])

theorem slots_exact_twoSlots :
    ∃ s w, Reachable Unhurried twoSlots s ∧ s.workerTable.lookup 1 = some w ∧
      w.currentTasks.size = 1 ∧ Exact w := by
  obtain ⟨_, s, hp, ht⟩ := exists_of_returns (f := perform .wait) (n := 20) (s := twoTasks twoSlots)
    (t := fun _ s ↦ (s.workerTable.lookup 1).any (fun w ↦ w.currentTasks.size = 1))
    (by decide +kernel)
  have hr : Reachable Unhurried twoSlots s :=
    .call (c := .wait) (reachable_twoTasks _ (fun _ _ hc he ↦ absurd he hc)) trivial (by rintro ⟨⟩) hp
  obtain ⟨w, hw, hs⟩ := (Option.any_eq_true _ _).mp ht
  exact ⟨s, w, hr, hw, of_decide_eq_true hs, (slots_exact hr hw).1⟩

/-- The slot of a task that was cancelled with all others stays taken, and the
request it never made is given back. -/
theorem cancelAllTasks_leaks_slot :
    ∃ s w, Reachable (fun _ _ ↦ True) twoSlots s ∧ s.workerTable.lookup 1 = some w ∧
      w.currentTasks.size = 0 ∧ w.unlabeledAllocated = 1 ∧ w.coresAllocated = 1 ∧
      w.resources.workers.total = 2 ∧ checkWorkerAgainstTask w (s.heap 0) = false := by
  obtain ⟨_, s, hp, ht⟩ := exists_of_returns (f := do perform .wait; perform .cancelAllTasks) (n := 20)
    (s := twoTasks twoSlots) (t := fun _ s ↦ (s.workerTable.lookup 1).any (fun w ↦
      w.currentTasks.size = 0 ∧ w.unlabeledAllocated = 1 ∧ w.coresAllocated = 1 ∧
        w.resources.workers.total = 2 ∧ checkWorkerAgainstTask w (s.heap 0) = false))
    (by decide +kernel)
  obtain ⟨_, s₁, hw, hc⟩ := bind_eq_done hp
  have hr : Reachable (fun _ _ ↦ True) twoSlots s :=
    .call (c := .cancelAllTasks) (.call (c := .wait) (reachable_twoTasks _ (fun _ _ _ ↦ trivial))
      trivial trivial hw) trivial trivial hc
  obtain ⟨w, hw, hs⟩ := (Option.any_eq_true _ _).mp ht
  exact ⟨s, w, hr, hw, of_decide_eq_true hs⟩

end Cyque.Slots
